import Mathlib.Data.String.Basic
import RenderGuard.Options
import RenderGuard.Proofs.Json.Texts

/-! Which texts set the option: an object that names it once, or an array that holds it alone. -/
namespace RenderGuard.Options

open Json (Element Piece Says Value decode_key_iff decode_string_iff exists_element_of_array
  exists_value_of_object)

variable {text handler : String} {v : Value} {members : List (List Piece × Value)}

/-- Whether a text names a handler. Of the other members only the keys have to say something. -/
inductive Names (text handler : String) : Prop where
  | object {before after : List (List Piece × Value)} {key body : List Piece}
      (h : Element (.object (before ++ (key, .string body) :: after)) text.toList)
      (hkey : Says key handlerKey.toList) (hbody : Says body handler.toList)
      (hother : ∀ m ∈ before ++ after, ∃ name, Says m.1 name ∧ name ≠ handlerKey.toList)
  | array {body : List Piece} (h : Element (.array [.string body]) text.toList)
      (hbody : Says body handler.toList)

theorem errorHandler_ofText_eq_some_iff : (ofText text).errorHandler = some handler ↔
    ∃ v, Value.read? text = some v ∧ ofValue? v = some ⟨some handler⟩ := by
  rw [ofText, ← Option.bind_eq_some_iff]
  cases (Value.read? text).bind ofValue? with
  | none => simp [unset]
  | some o =>
    cases o
    simp

theorem ofHandler?_eq_some_iff : ofHandler? v = some ⟨some handler⟩ ↔
    ∃ body, v = .string body ∧ Piece.decode body = some handler.toList := by
  cases v with
  | string body =>
    simp only [ofHandler?, Option.map_eq_some_iff, Options.mk.injEq, Option.some.injEq,
      String.ofList_eq, Value.string.injEq, exists_eq_right, exists_eq_left']
  | null => simp [ofHandler?, unset]
  | _ => simp [ofHandler?]

theorem keyed?_eq_some_iff {kvs : List (List Char × Value)} : keyed? members = some kvs ↔
    (∀ m ∈ members, ∃ name, Piece.decode m.1 = some name) ∧
      kvs = members.map fun m => ((Piece.decode m.1).getD [], m.2) := by
  induction members generalizing kvs with
  | nil => simp [keyed?, eq_comm]
  | cons m rest ih =>
    obtain ⟨key, v⟩ := m
    constructor
    · intro h
      obtain ⟨name, hname, hrest⟩ := Option.bind_eq_some_iff.1 h
      obtain ⟨kvs', hkvs, heq⟩ := Option.bind_eq_some_iff.1 hrest
      cases heq
      obtain ⟨hall, rfl⟩ := ih.1 hkvs
      exact ⟨List.forall_mem_cons.2 ⟨⟨name, hname⟩, hall⟩, by simp [hname]⟩
    · rintro ⟨hall, rfl⟩
      obtain ⟨⟨name, hname⟩, hrest⟩ := List.forall_mem_cons.1 hall
      have hkvs := ih.2 ⟨hrest, rfl⟩
      simp only at hname
      rw [keyed?, hname, hkvs]
      simp [hname]

/-- The members whose key is the option, in an object whose keys can all be read. -/
theorem filter_keyed (h : ∀ m ∈ members, ∃ name, Piece.decode m.1 = some name) :
    (members.map fun m => ((Piece.decode m.1).getD [], m.2)).filter (·.1 == handlerKey.toList) =
      (members.filter fun m => Piece.decode m.1 == some handlerKey.toList).map
        fun m => ((Piece.decode m.1).getD [], m.2) := by
  rw [List.filter_map]
  congr 1
  apply List.filter_congr
  intro m hm
  obtain ⟨name, hname⟩ := h m hm
  simp [hname]

theorem ofValue?_object_eq_some_iff : ofValue? (.object members) = some ⟨some handler⟩ ↔
    (∀ m ∈ members, ∃ name, Piece.decode m.1 = some name) ∧
    ∃ before key body after, members = before ++ (key, .string body) :: after ∧
      Piece.decode key = some handlerKey.toList ∧ Piece.decode body = some handler.toList ∧
      ∀ m ∈ before ++ after, Piece.decode m.1 ≠ some handlerKey.toList := by
  constructor
  · intro h
    obtain ⟨kvs, hkvs, h⟩ := Option.bind_eq_some_iff.1 h
    obtain ⟨hall, rfl⟩ := keyed?_eq_some_iff.1 hkvs
    refine ⟨hall, ?_⟩
    rw [filter_keyed hall] at h
    split at h
    · cases h
    · next name v hone =>
      obtain ⟨body, rfl, hbody⟩ := ofHandler?_eq_some_iff.1 h
      obtain ⟨⟨key, w⟩, hfilter, heq⟩ := List.map_eq_singleton_iff.1 hone
      cases heq
      obtain ⟨before, after, rfl, hbefore, hkey, hafter⟩ := List.filter_eq_cons_iff.1 hfilter
      have hafter := List.filter_eq_nil_iff.1 hafter
      refine ⟨before, key, body, after, rfl, eq_of_beq hkey, hbody, ?_⟩
      intro m hm
      rcases List.mem_append.1 hm with hm | hm
      · simpa using hbefore m hm
      · simpa using hafter m hm
    · cases h
  · rintro ⟨hall, before, key, body, after, rfl, hkey, hbody, hother⟩
    have hkvs := keyed?_eq_some_iff.2 ⟨hall, rfl⟩
    have hone : (before ++ (key, Value.string body) :: after).filter
        (fun m => Piece.decode m.1 == some handlerKey.toList) = [(key, .string body)] := by
      refine List.filter_eq_cons_iff.2 ⟨before, after, rfl, ?_, by simp [hkey], ?_⟩
      · intro m hm
        simpa using hother m (List.mem_append_left after hm)
      · refine List.filter_eq_nil_iff.2 fun m hm => ?_
        simpa using hother m (List.mem_append_right before hm)
    rw [ofValue?, hkvs, Option.bind_eq_bind, Option.bind_some, filter_keyed hall, hone]
    exact ofHandler?_eq_some_iff.2 ⟨body, rfl, hbody⟩

theorem names_of_array {items : List Value} (h : Element (.array items) text.toList)
    (hv : ofValue? (.array items) = some ⟨some handler⟩) : Names text handler := by
  match items, hv with
  | [v], hv =>
    obtain ⟨body, rfl, hbody⟩ := ofHandler?_eq_some_iff.1 hv
    obtain ⟨ds, hds⟩ := exists_element_of_array h List.mem_cons_self
    exact .array h ((decode_string_iff hds).1 hbody)

theorem names_of_object (h : Element (.object members) text.toList)
    (hv : ofValue? (.object members) = some ⟨some handler⟩) : Names text handler := by
  obtain ⟨hall, before, key, body, after, rfl, hkey, hbody, hother⟩ :=
    ofValue?_object_eq_some_iff.1 hv
  have hm : (key, Value.string body) ∈ before ++ (key, .string body) :: after := by simp
  obtain ⟨ds, hds⟩ := exists_value_of_object h hm
  refine .object h ((decode_key_iff h hm).1 hkey) ((decode_string_iff hds).1 hbody) ?_
  intro m hm
  have hmem : m ∈ before ++ (key, .string body) :: after :=
    List.perm_middle.mem_iff.2 (List.mem_cons_of_mem _ hm)
  obtain ⟨name, hname⟩ := hall m hmem
  refine ⟨name, (decode_key_iff h hmem).1 hname, ?_⟩
  rintro rfl
  exact hother m hm hname

theorem exists_value_of_names (h : Names text handler) :
    ∃ v, Element v text.toList ∧ ofValue? v = some ⟨some handler⟩ := by
  cases h with
  | @object before after key body h hkey hbody hother =>
    have hm : (key, Value.string body) ∈ before ++ (key, .string body) :: after := by simp
    obtain ⟨ds, hds⟩ := exists_value_of_object h hm
    have hnames : ∀ m ∈ before ++ after, ∃ name, Piece.decode m.1 = some name ∧
        name ≠ handlerKey.toList := by
      intro m hm
      obtain ⟨name, hsays, hne⟩ := hother m hm
      have hmem := List.perm_middle.mem_iff.2 (List.mem_cons_of_mem (key, Value.string body) hm)
      exact ⟨name, (decode_key_iff h hmem).2 hsays, hne⟩
    refine ⟨_, h, ofValue?_object_eq_some_iff.2 ⟨?_, before, key, body, after, rfl,
      (decode_key_iff h hm).2 hkey, (decode_string_iff hds).2 hbody, ?_⟩⟩
    · intro m hm'
      rcases List.mem_cons.1 (List.perm_middle.mem_iff.1 hm') with rfl | hm'
      · exact ⟨_, (decode_key_iff h hm).2 hkey⟩
      · obtain ⟨name, hname, _⟩ := hnames m hm'
        exact ⟨name, hname⟩
    · intro m hm' hkey'
      obtain ⟨name, hname, hne⟩ := hnames m hm'
      exact hne (Option.some.inj (hname.symm.trans hkey'))
  | @array body h hbody =>
    obtain ⟨ds, hds⟩ := exists_element_of_array h List.mem_cons_self
    exact ⟨_, h, ofHandler?_eq_some_iff.2 ⟨body, rfl, (decode_string_iff hds).2 hbody⟩⟩

/-- A text sets the option to a handler exactly if it names it, and otherwise leaves it unset. -/
theorem option_text_all_or_nothing (text : String) :
    (∀ handler, (ofText? (some text)).errorHandler = some handler ↔ Names text handler) ∧
    ((ofText? (some text)).errorHandler = none ↔ ∀ handler, ¬ Names text handler) := by
  have hiff : ∀ handler,
      (ofText? (some text)).errorHandler = some handler ↔ Names text handler := by
    intro handler
    rw [show ofText? (some text) = ofText text from rfl, errorHandler_ofText_eq_some_iff]
    simp only [Json.read?_eq_some_iff]
    constructor
    · rintro ⟨v, h, hv⟩
      cases v with
      | array items => exact names_of_array h hv
      | object members => exact names_of_object h hv
      | _ => cases hv
    · exact exists_value_of_names
  refine ⟨hiff, ?_⟩
  simp only [← hiff, Option.eq_none_iff_forall_ne_some, ne_eq]

/-- A key is compared after reading its escapes, and a half of a pair does no harm in a value that
is not looked at. -/
theorem option_text_all_or_nothing_sample :
    Names " \x7b\"other\": [\"\\ud800\", -1.5e+9], \"error\\u0048andler\":\"./h\" \x7d" "./h" ∧
    ∀ handler, ¬ Names "\x7b\"errorHandler\":\"./h\", \"error\\u0048andler\":null\x7d" handler :=
  ⟨((option_text_all_or_nothing _).1 _).1 (by decide +kernel),
    (option_text_all_or_nothing _).2.1 (by decide +kernel)⟩

end RenderGuard.Options
