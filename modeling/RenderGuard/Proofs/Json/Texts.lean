import RenderGuard.Proofs.Json.Tokens
import RenderGuard.Proofs.Json.Values

/-! A text is read as a value exactly if it spells the value. The tokens stand between the two. -/
namespace RenderGuard.Json

variable {cs ds rest w ws : List Char} {t : Token} {ts row : List Token} {v : Value}
  {P : List Char → Prop}

theorem stops_nil : Stops [] := fun _ hc => nomatch hc

/-- Blanks end a number, if what comes after them does. -/
theorem Blank.stops (h : Blank ws) (hrest : Stops rest) : Stops (ws ++ rest) := by
  cases ws with
  | nil => exact hrest
  | cons c ws =>
    rintro d ⟨⟩
    have hc := h c List.mem_cons_self
    simp only [List.mem_cons, List.not_mem_nil, or_false] at hc
    rcases hc with rfl | rfl | rfl | rfl <;> decide

/-- A number ends before the comma or the bracket after it. -/
theorem stops_cons {c : Char} (h : c = ',' ∨ c = ']' ∨ c = '}') : Stops (c :: cs) := by
  rintro d ⟨⟩
  rcases h with rfl | rfl | rfl <;> decide

/-- Any text of this kind is cut into these tokens, if what comes next cannot belong to it. -/
def Spells (P : List Char → Prop) (ts : List Token) : Prop :=
  ∀ cs rest, P cs → Stops rest → Reads (cs ++ rest) ts rest

theorem spells_element (h : Spells v.Written v.tokens) : Spells (Element v) v.tokens := by
  intro cs rest he hrest
  cases he with
  | @padded _ before w after hb hw ha =>
    have hbefore := reads_blank hb (w ++ (after ++ rest))
    have hvalue := h w (after ++ rest) hw (ha.stops hrest)
    have hafter := reads_blank ha rest
    simpa using (hbefore.append hvalue).append hafter

theorem spells_member {key : List Piece} (h : Spells v.Written v.tokens) :
    Spells (Member (key, v)) (keyedTokens (key, v)) := by
  intro cs rest hm hrest
  cases hm with
  | @keyed _ _ before w after cs hb hk ha hv =>
    have hbefore := reads_blank hb (w ++ (after ++ ':' :: (cs ++ rest)))
    have hkey : Reads (w ++ (after ++ ':' :: (cs ++ rest))) _ _ := reads_token (.string hk) trivial
    have hafter := reads_blank ha (':' :: (cs ++ rest))
    have hcolon : Reads ([':'] ++ (cs ++ rest)) _ _ := reads_token .colon trivial
    have hvalue := spells_element h cs rest hv hrest
    simpa [keyedTokens] using
      (((hbefore.append hkey).append hafter).append hcolon).append hvalue

theorem spells_separated {α : Type} {Q : α → List Char → Prop} {toks : α → List Token}
    {xs : List α} (h : ∀ x ∈ xs, Spells (Q x) (toks x)) :
    Spells (Separated Q xs) (separated (xs.map toks)) := by
  intro cs rest hs hrest
  induction hs with
  | last hx => exact h _ List.mem_cons_self _ _ hx hrest
  | @more x xs cs ds hx hxs ih =>
    have hfirst := h x List.mem_cons_self cs (',' :: (ds ++ rest)) hx (stops_cons (Or.inl rfl))
    have hcomma : Reads ([','] ++ (ds ++ rest)) _ _ := reads_token .comma trivial
    have htail := ih fun y hy => h y (List.mem_cons_of_mem x hy)
    have hrow : separated ((x :: xs).map toks) = toks x ++ .comma :: separated (xs.map toks) := by
      cases hxs <;> rfl
    rw [hrow]
    simpa using (hfirst.append hcomma).append htail

theorem spells_blank : Spells Blank [] := fun _ rest hb _ => reads_blank hb rest

/-- What stands between two brackets is cut between the tokens of the brackets. -/
theorem reads_between {o c : Token} {first last : Char}
    (ho : ∀ rest, Reads ([first] ++ rest) [o] rest) (hc : ∀ rest, Reads ([last] ++ rest) [c] rest)
    (hlast : last = ']' ∨ last = '}') (h : Spells P ts) (hcs : P cs) (rest : List Char) :
    Reads (first :: (cs ++ [last]) ++ rest) (o :: (ts ++ [c])) rest := by
  have hopen := ho (cs ++ last :: rest)
  have hinner := h cs (last :: rest) hcs (stops_cons (Or.inr hlast))
  simpa using (hopen.append hinner).append (hc rest)

theorem reads_array (h : Spells P ts) (hcs : P cs) (rest : List Char) :
    Reads ('[' :: (cs ++ [']']) ++ rest) (.openArray :: (ts ++ [.closeArray])) rest :=
  reads_between (fun _ => reads_token .openArray trivial) (fun _ => reads_token .closeArray trivial)
    (Or.inl rfl) h hcs rest

theorem reads_object (h : Spells P ts) (hcs : P cs) (rest : List Char) :
    Reads ('{' :: (cs ++ ['}']) ++ rest) (.openObject :: (ts ++ [.closeObject])) rest :=
  reads_between (fun _ => reads_token .openObject trivial)
    (fun _ => reads_token .closeObject trivial) (Or.inr rfl) h hcs rest

theorem spells_written (v : Value) : Spells v.Written v.tokens := by
  induction v using Value.inductionOnParts with
  | step v ih =>
    intro cs rest h hrest
    cases h with
    | null => exact reads_token .null trivial
    | yes => exact reads_token .yes trivial
    | no => exact reads_token .no trivial
    | number h => exact reads_token (.number h) hrest
    | string h => exact reads_token (.string h) trivial
    | emptyArray h => exact reads_array spells_blank h rest
    | @array items _ h =>
      rw [tokens_array]
      have hitems : ∀ w ∈ items, Spells (Element w) w.tokens := fun w hw => spells_element (ih w hw)
      exact reads_array (spells_separated hitems) h rest
    | emptyObject h => exact reads_object spells_blank h rest
    | @object members _ h =>
      rw [tokens_object]
      have hmembers : ∀ m ∈ members, Spells (Member m) (keyedTokens m) :=
        fun m hm => spells_member (ih m.2 (List.mem_map_of_mem hm))
      exact reads_object (spells_separated hmembers) h rest

/-- A text that is cut into these tokens and others starts with one of this kind, where blanks
before it count as part of it. -/
def Covers (P : List Char → Prop) (row : List Token) : Prop :=
  ∀ ws ts cs, Blank ws → Lexed (row ++ ts) cs →
    ∃ es rest, cs = es ++ rest ∧ P (ws ++ es) ∧ Lexed ts rest

theorem covers_blank : Covers Blank [] :=
  fun _ _ cs hb h => ⟨[], cs, rfl, by rwa [List.append_nil], h⟩

theorem covers_scalar (hv : v.tokens = [t]) (h : ∀ w, t.Written w → v.Written w) :
    Covers (Element v) v.tokens := by
  intro ws ts cs hb hl
  rw [hv] at hl
  cases hl with
  | @cons _ _ w after rest ht ha hts =>
    refine ⟨w ++ after, rest, rfl, ?_, hts⟩
    rw [← List.append_assoc]
    exact .padded hb (h w ht) ha

theorem covers_between {o c : Token} {first last : Char} (hv : v.tokens = o :: (row ++ [c]))
    (ho : ∀ w, o.Written w → w = [first]) (hc : ∀ w, c.Written w → w = [last])
    (hrow : Covers P row) (h : ∀ cs, P cs → v.Written (first :: (cs ++ [last]))) :
    Covers (Element v) v.tokens := by
  intro ws ts cs hb hl
  rw [hv, List.cons_append, List.append_assoc] at hl
  cases hl with
  | @cons _ _ w inner cs hw hi hinner =>
    obtain ⟨es, rest, rfl, hes, hlast⟩ := hrow inner _ _ hi hinner
    cases hlast with
    | @cons _ _ w' after rest hw' ha hrest =>
      obtain rfl := ho w hw
      obtain rfl := hc w' hw'
      refine ⟨first :: (inner ++ es ++ [last]) ++ after, rest, by simp, ?_, hrest⟩
      rw [← List.append_assoc]
      exact .padded hb (h _ hes) ha

theorem covers_member {key : List Piece} (h : Covers (Element v) v.tokens) :
    Covers (Member (key, v)) (keyedTokens (key, v)) := by
  intro ws ts cs hb hl
  rw [keyedTokens] at hl
  cases hl with
  | @cons _ _ w after cs hw ha hcolon =>
    cases hcolon with
    | @cons _ _ w' inner cs hw' hi hvalue =>
      obtain ⟨es, rest, rfl, hes, hrest⟩ := h inner _ _ hi hvalue
      cases hw with
      | string hk =>
        cases hw'
        refine ⟨w ++ after ++ ':' :: (inner ++ es), rest, by simp, ?_, hrest⟩
        rw [← List.append_assoc, ← List.append_assoc]
        exact .keyed hb hk ha hes

theorem covers_separated {α : Type} {Q : α → List Char → Prop} {toks : α → List Token}
    {xs : List α} (hne : xs ≠ []) (h : ∀ x ∈ xs, Covers (Q x) (toks x)) :
    Covers (Separated Q xs) (separated (xs.map toks)) := by
  induction xs with
  | nil => exact absurd rfl hne
  | cons x xs ih =>
    intro ws ts cs hb hl
    cases xs with
    | nil =>
      obtain ⟨es, rest, rfl, hes, hrest⟩ := h x List.mem_cons_self ws ts cs hb hl
      exact ⟨es, rest, rfl, .last hes, hrest⟩
    | cons y ys =>
      have htail := ih (List.cons_ne_nil y ys) fun z hz => h z (List.mem_cons_of_mem x hz)
      rw [List.map_cons, List.map_cons, separated, List.append_assoc, List.cons_append] at hl
      · obtain ⟨es, rest, rfl, hes, hcomma⟩ := h x List.mem_cons_self ws _ cs hb hl
        cases hcomma with
        | @cons _ _ w inner cs hw hi hmore =>
          cases hw
          obtain ⟨fs, rest, rfl, hfs, hrest⟩ := htail inner ts cs hi hmore
          refine ⟨es ++ ',' :: (inner ++ fs), rest, by simp, ?_, hrest⟩
          rw [← List.append_assoc]
          exact .more hes hfs
      · exact List.cons_ne_nil _ _

theorem covers_array {items : List Value}
    (h : Covers P (separated (items.map Value.tokens)))
    (hw : ∀ cs, P cs → (Value.array items).Written ('[' :: (cs ++ [']']))) :
    Covers (Element (.array items)) (Value.array items).tokens :=
  covers_between (tokens_array items) (fun w ho => by cases ho; rfl) (fun w hc => by cases hc; rfl)
    h hw

theorem covers_object {members : List (List Piece × Value)}
    (h : Covers P (separated (members.map keyedTokens)))
    (hw : ∀ cs, P cs → (Value.object members).Written ('{' :: (cs ++ ['}']))) :
    Covers (Element (.object members)) (Value.object members).tokens :=
  covers_between (tokens_object members) (fun w ho => by cases ho; rfl)
    (fun w hc => by cases hc; rfl) h hw

theorem covers_element (v : Value) : Covers (Element v) v.tokens := by
  induction v using Value.inductionOnParts with
  | step v ih =>
    cases v with
    | null =>
      apply covers_scalar rfl
      rintro w ⟨⟩
      exact .null
    | bool b =>
      apply covers_scalar rfl
      intro w hw
      cases hw with
      | yes => exact .yes
      | no => exact .no
    | number digits =>
      apply covers_scalar rfl
      intro w hw
      cases hw with
      | number h => exact .number h
    | string body =>
      apply covers_scalar rfl
      intro w hw
      cases hw with
      | string h => exact .string h
    | array items =>
      cases items with
      | nil => exact covers_array covers_blank fun cs hcs => .emptyArray hcs
      | cons v vs =>
        have hitems := covers_separated (List.cons_ne_nil v vs) ih
        exact covers_array hitems fun cs hcs => .array hcs
    | object members =>
      cases members with
      | nil => exact covers_object covers_blank fun cs hcs => .emptyObject hcs
      | cons m ms =>
        have hmembers : ∀ m' ∈ m :: ms, Covers (Member m') (keyedTokens m') :=
          fun m' hm => covers_member (ih m'.2 (List.mem_map_of_mem hm))
        exact covers_object (covers_separated (List.cons_ne_nil m ms) hmembers)
          fun cs hcs => .object hcs

/-- A text is read as a value exactly if it spells the value. -/
theorem read?_eq_some_iff {text : String} :
    Value.read? text = some v ↔ Element v text.toList := by
  rw [Value.read?, Option.bind_eq_some_iff]
  constructor
  · rintro ⟨ts, hts, hv⟩
    obtain rfl := ofTokens?_eq_some_iff.1 hv
    obtain ⟨us, ws, tail, hus, htext, hb, hl⟩ := lexed_of_tokensFrom? hts
    obtain rfl : v.tokens = us := hus
    rw [← List.append_nil v.tokens] at hl
    obtain ⟨es, rest, rfl, hes, hrest⟩ := covers_element v ws [] tail hb hl
    cases hrest
    rw [htext, List.append_nil]
    exact hes
  · intro h
    have hreads := spells_element (spells_written v) text.toList [] h stops_nil
    rw [List.append_nil] at hreads
    exact ⟨v.tokens, tokens?_of_reads hreads, ofTokens?_eq_some_iff.2 rfl⟩

end RenderGuard.Json
