import Mathlib.Tactic.IntervalCases
import RenderGuard.Proofs.Json.Grammar

/-! Reading a string literal agrees with its grammar, in its pieces and in its text. -/
namespace RenderGuard.Json

variable {done ps qs : List Piece} {cs rest w : List Char} {c e : Char} {n u v : Nat}

/-- The place of a character in a list that holds a run of successive characters. -/
theorem getElem?_of_run {digits : List Char} (start base len : Nat)
    (hrun : ∀ i < len, digits[i + base]? = some (Char.ofNat (start + i)))
    (h : start ≤ c.toNat) (h' : c.toNat < start + len) :
    digits[c.toNat - start + base]? = some c := by
  obtain ⟨i, hi⟩ := Nat.exists_eq_add_of_le h
  have hc := hrun i (by omega)
  rw [← hi, Char.ofNat_toNat] at hc
  rw [hi, Nat.add_sub_cancel_left, hc]

theorem hexDigit?_eq_some_iff : hexDigit? c = some n ↔ HexDigit c n := by
  constructor
  · intro h
    simp only [hexDigit?, Bool.and_eq_true, decide_eq_true_eq] at h
    split at h
    · next hr =>
      cases h
      exact .lower (getElem?_of_run 48 0 10 (by decide) hr.1 (Nat.lt_succ_of_le hr.2))
    · split at h
      · next hr =>
        cases h
        exact .lower (getElem?_of_run 97 10 6 (by decide) hr.1 (Nat.lt_succ_of_le hr.2))
      · split at h
        · next hr =>
          cases h
          exact .upper (getElem?_of_run 65 10 6 (by decide) hr.1 (Nat.lt_succ_of_le hr.2))
        · cases h
  · intro h
    cases h with
    | lower h =>
      obtain ⟨hn, rfl⟩ := List.getElem?_eq_some_iff.1 h
      change n < 16 at hn
      interval_cases n <;> rfl
    | upper h =>
      obtain ⟨hn, rfl⟩ := List.getElem?_eq_some_iff.1 h
      change n < 16 at hn
      interval_cases n <;> rfl

theorem lt_of_hexDigit (h : HexDigit c n) : n < 16 := by
  cases h with
  | lower h => exact (List.getElem?_eq_some_iff.1 h).1
  | upper h => exact (List.getElem?_eq_some_iff.1 h).1

theorem codeUnit?_eq_some_iff {a b c d : Char} :
    codeUnit? a b c d = some u ↔ ∃ k l m n, HexDigit a k ∧ HexDigit b l ∧ HexDigit c m ∧
      HexDigit d n ∧ u = ((k * 16 + l) * 16 + m) * 16 + n := by
  simp only [codeUnit?, Option.bind_eq_bind, Option.bind_eq_some_iff, hexDigit?_eq_some_iff,
    Option.pure_def, Option.some.injEq]
  grind

theorem escaped?_eq_some_iff : escaped? c = some e ↔ (c, e) ∈ shortEscapes := by
  constructor
  · intro h
    unfold escaped? at h
    split at h <;> cases h <;> decide
  · intro h
    simp only [shortEscapes, List.mem_cons, Prod.mk.injEq, List.not_mem_nil, or_false] at h
    rcases h with ⟨rfl, rfl⟩ | ⟨rfl, rfl⟩ | ⟨rfl, rfl⟩ | ⟨rfl, rfl⟩ | ⟨rfl, rfl⟩ | ⟨rfl, rfl⟩ |
      ⟨rfl, rfl⟩ | ⟨rfl, rfl⟩ <;> rfl

theorem pieces?_append {p : Piece} (h : p.Written w) :
    pieces? done (w ++ cs) = pieces? (p :: done) cs := by
  cases h with
  | @plain c control quote backslash =>
    have hcontrol : ¬ c.toNat < 0x20 := Nat.not_lt.2 control
    rw [List.cons_append, List.nil_append, pieces?]
    · simp [backslash, hcontrol]
    all_goals simp [quote, backslash]
  | short h =>
    rw [List.cons_append, List.cons_append, List.nil_append, pieces?]
    · rw [escaped?_eq_some_iff.2 h]
    · rintro a b c d rest rfl
      simp [shortEscapes] at h
  | number ha hb hc hd =>
    simp only [List.cons_append, List.nil_append, pieces?]
    rw [codeUnit?_eq_some_iff.2 ⟨_, _, _, _, ha, hb, hc, hd, rfl⟩]

theorem pieces?_of_body (h : Body ps cs) :
    pieces? done (cs ++ '"' :: rest) = some (done.reverse ++ ps, rest) := by
  induction h generalizing done with
  | nil => simp [pieces?]
  | cons hp _ ih =>
    rw [List.append_assoc, pieces?_append hp, ih]
    simp

theorem body_of_pieces? (h : pieces? done cs = some (ps, rest)) :
    ∃ qs w, Body qs w ∧ ps = done.reverse ++ qs ∧ cs = w ++ '"' :: rest := by
  fun_induction pieces? done cs with
  | case1 => cases h
  | case2 done tail =>
    cases h
    exact ⟨[], [], .nil, by simp, rfl⟩
  | case3 done a b c d tail u hu ih =>
    obtain ⟨k, l, m, n, ha, hb, hc, hd, rfl⟩ := codeUnit?_eq_some_iff.1 hu
    obtain ⟨qs, w, hbody, rfl, rfl⟩ := ih h
    exact ⟨_, _, .cons (.number ha hb hc hd) hbody, by simp, rfl⟩
  | case4 => cases h
  | case5 done c tail _ e he ih =>
    obtain ⟨qs, w, hbody, rfl, rfl⟩ := ih h
    exact ⟨_, _, .cons (.short (escaped?_eq_some_iff.1 he)) hbody, by simp, rfl⟩
  | case6 => cases h
  | case7 => cases h
  | case8 done c tail hquote _ _ hc ih =>
    obtain ⟨qs, w, hbody, rfl, rfl⟩ := ih h
    simp only [Bool.or_eq_true, decide_eq_true_eq, beq_iff_eq, not_or, Nat.not_lt] at hc
    exact ⟨_, _, .cons (.plain hc.1 hquote hc.2) hbody, by simp, rfl⟩

theorem pieces?_eq_some_iff :
    pieces? [] cs = some (ps, rest) ↔ ∃ w, Body ps w ∧ cs = w ++ '"' :: rest := by
  constructor
  · intro h
    obtain ⟨qs, w, hbody, rfl, rfl⟩ := body_of_pieces? h
    exact ⟨w, hbody, rfl⟩
  · rintro ⟨w, hbody, rfl⟩
    exact pieces?_of_body hbody

namespace Piece

theorem toNat_ofNat (h : n.isValidChar) : (Char.ofNat n).toNat = n := by
  rw [Char.ofNat, dif_pos h]
  rfl

/-- A character has one code unit that is no half of a pair, or it has the two of a pair. -/
theorem codeUnits_cases (c : Char) :
    (codeUnits c = [c.toNat] ∧ isHigh c.toNat = false ∧ isLow c.toNat = false) ∨
    ∃ high low, codeUnits c = [high, low] ∧ isHigh high = true ∧ isLow low = true ∧
      pair high low = c := by
  have hvalid : c.toNat.isValidChar := c.valid
  by_cases hc : c.toNat < 0x10000
  · left
    rcases hvalid with h | h <;> simp [codeUnits, hc, isHigh, isLow] <;> omega
  · right
    refine ⟨_, _, if_neg hc, ?_, ?_, ?_⟩
    · rcases hvalid with h | h <;> simp [isHigh] <;> omega
    · rcases hvalid with h | h <;> simp [isLow] <;> omega
    · have hnum : 0x10000 + (0xD800 + (c.toNat - 0x10000) / 0x400 - 0xD800) * 0x400 +
          (0xDC00 + (c.toNat - 0x10000) % 0x400 - 0xDC00) = c.toNat := by omega
      rw [pair, hnum, Char.ofNat_toNat]

theorem codeUnits_pair (hu : isHigh u = true) (hv : isLow v = true) :
    codeUnits (pair u v) = [u, v] := by
  simp only [isHigh, isLow, Bool.and_eq_true, decide_eq_true_eq] at hu hv
  have hnum : (pair u v).toNat = 0x10000 + (u - 0xD800) * 0x400 + (v - 0xDC00) := by
    apply toNat_ofNat
    right
    omega
  have hhigh : 0xD800 + ((pair u v).toNat - 0x10000) / 0x400 = u := by omega
  have hlow : 0xDC00 + ((pair u v).toNat - 0x10000) % 0x400 = v := by omega
  rw [codeUnits, if_neg (by omega), hhigh, hlow]

theorem toNat_ofNat_of_no_half (hlt : u < 0x10000) (hu : isHigh u = false) (hv : isLow u = false) :
    (Char.ofNat u).toNat = u := by
  simp only [isHigh, isLow, Bool.and_eq_false_iff, decide_eq_false_iff_not] at hu hv
  apply toNat_ofNat
  by_cases h : u < 0xD800
  · exact Or.inl h
  · right
    omega

theorem codeUnits_ofNat (hlt : u < 0x10000) (hu : isHigh u = false) (hv : isLow u = false) :
    codeUnits (Char.ofNat u) = [u] := by
  rw [codeUnits, toNat_ofNat_of_no_half hlt hu hv, if_pos hlt]

theorem isLow_of_isHigh (h : isHigh u = true) : isLow u = false := by
  simp only [isHigh, isLow, Bool.and_eq_true, Bool.and_eq_false_iff, decide_eq_true_eq,
    decide_eq_false_iff_not] at *
  omega

/-- A row of code units starts with those of one character at most. -/
theorem codeUnits_append_inj {us vs : List Nat} (h : codeUnits c ++ us = codeUnits e ++ vs) :
    c = e ∧ us = vs := by
  rcases codeUnits_cases c with ⟨hc, hch, _⟩ | ⟨high, low, hc, hch, _, rfl⟩ <;>
    rcases codeUnits_cases e with ⟨he, heh, _⟩ | ⟨high', low', he, heh, _, rfl⟩ <;>
    rw [hc, he] at h <;> simp only [List.cons_append, List.nil_append, List.cons.injEq] at h
  · exact ⟨Char.toNat_inj.1 h.1, h.2⟩
  · rw [h.1, heh] at hch
    cases hch
  · rw [h.1, heh] at hch
    cases hch
  · obtain ⟨rfl, rfl, rfl⟩ := h
    exact ⟨rfl, rfl⟩

theorem codeUnits_ne_nil (c : Char) : codeUnits c ≠ [] := by
  rcases codeUnits_cases c with ⟨hc, _⟩ | ⟨_, _, hc, _⟩ <;> simp [hc]

theorem says_nil_iff : Says [] cs ↔ cs = [] := by
  cases cs with
  | nil => exact ⟨fun _ => rfl, fun _ => rfl⟩
  | cons d ds => simp [Says, codeUnits_ne_nil]

/-- Pieces that say one character say the first one of the text, whatever comes after them. -/
theorem says_append_iff (h : Says ps [c]) :
    Says (ps ++ qs) cs ↔ ∃ ds, Says qs ds ∧ c :: ds = cs := by
  have hunits : ps.flatMap units = codeUnits c := h.trans (List.append_nil _)
  rw [Says, List.flatMap_append, hunits]
  constructor
  · intro heq
    cases cs with
    | nil => simp [codeUnits_ne_nil] at heq
    | cons d ds =>
      obtain ⟨rfl, hds⟩ := codeUnits_append_inj heq
      exact ⟨ds, hds, rfl⟩
  · rintro ⟨ds, hds, rfl⟩
    exact congrArg (codeUnits c ++ ·) hds

theorem isLow_of_codeUnits_append {us vs : List Nat} (h : v :: vs = codeUnits c ++ us) :
    isLow v = false := by
  rcases codeUnits_cases c with ⟨hc, _, hl⟩ | ⟨high, low, hc, hh, _⟩ <;>
    rw [hc] at h <;> obtain ⟨rfl, _⟩ := List.cons.inj h
  · exact hl
  · exact isLow_of_isHigh hh

/-- No text starts with a low unit. -/
theorem not_says_of_isLow (hu : isLow u = true) : ¬ Says (unit u :: ps) cs := by
  intro h
  cases cs with
  | nil => cases h
  | cons d ds => cases hu.symm.trans (isLow_of_codeUnits_append h)

/-- After a high unit comes a low one, which is again an escaped one. -/
theorem exists_low_of_says (hu : isHigh u = true) (h : Says (unit u :: ps) cs) :
    ∃ low rest, ps = unit low :: rest ∧ isLow low = true := by
  cases cs with
  | nil => cases h
  | cons d ds =>
    have hunits : u :: ps.flatMap units = codeUnits d ++ ds.flatMap codeUnits := h
    rcases codeUnits_cases d with ⟨hd, hh, _⟩ | ⟨high, low, hd, _, hl, _⟩ <;>
      rw [hd] at hunits <;> obtain ⟨rfl, htail⟩ := List.cons.inj hunits
    · cases hu.symm.trans hh
    · cases ps with
      | nil => cases htail
      | cons p rest =>
        cases p with
        | char c => cases hl.symm.trans (isLow_of_codeUnits_append htail.symm)
        | unit v =>
          obtain ⟨rfl, _⟩ := List.cons.inj htail
          exact ⟨v, rest, rfl, hl⟩

/-- Where all escaped units have 16 bits, the text of a literal is what it says. -/
theorem decode_eq_some_iff (hlt : ∀ u, .unit u ∈ ps → u < 0x10000) :
    decode ps = some cs ↔ Says ps cs := by
  fun_induction decode ps generalizing cs with
  | case1 => rw [says_nil_iff, Option.some.injEq, eq_comm]
  | case2 c rest ih =>
    have hsays : Says [char c] [c] := rfl
    simp only [Option.map_eq_some_iff, ih fun u hu => hlt u (.tail _ hu)]
    exact (says_append_iff hsays).symm
  | case3 u hu v rest hv ih =>
    have hsays : Says [unit u, unit v] [pair u v] := by simp [Says, units, codeUnits_pair hu hv]
    simp only [Option.map_eq_some_iff, ih fun u hu => hlt u (.tail _ (.tail _ hu))]
    exact (says_append_iff hsays).symm
  | case4 u hu v rest hv =>
    refine iff_of_false (by simp) fun h => ?_
    obtain ⟨low, rest', heq, hl⟩ := exists_low_of_says hu h
    cases heq
    exact hv hl
  | case5 u rest hu hrest =>
    refine iff_of_false (by simp) fun h => ?_
    obtain ⟨low, rest', heq, _⟩ := exists_low_of_says hu h
    exact hrest low rest' heq
  | case6 u rest hu hl => exact iff_of_false (by simp) (not_says_of_isLow hl)
  | case7 u rest hu hl ih =>
    have hunit : codeUnits (Char.ofNat u) = [u] :=
      codeUnits_ofNat (hlt u List.mem_cons_self) (by simpa using hu) (by simpa using hl)
    have hsays : Says [unit u] [Char.ofNat u] := by simp [Says, units, hunit]
    simp only [Option.map_eq_some_iff, ih fun u hu => hlt u (.tail _ hu)]
    exact (says_append_iff hsays).symm

theorem lt_of_written (h : (unit u).Written w) : u < 0x10000 := by
  cases h with
  | number ha hb hc hd =>
    have := lt_of_hexDigit ha
    have := lt_of_hexDigit hb
    have := lt_of_hexDigit hc
    have := lt_of_hexDigit hd
    omega

end Piece

theorem lt_of_mem_body (h : Body ps w) (hu : .unit u ∈ ps) : u < 0x10000 := by
  induction h with
  | nil => cases hu
  | cons hp _ ih =>
    cases hu with
    | head => exact Piece.lt_of_written hp
    | tail _ hu => exact ih hu

/-- The text that is read from a literal is the one that the literal says. -/
theorem decode_eq_some_iff_of_literal (h : Literal ps w) :
    Piece.decode ps = some cs ↔ Says ps cs := by
  cases h with
  | quoted hbody => exact Piece.decode_eq_some_iff fun u hu => lt_of_mem_body hbody hu

variable {v : Value} {members : List (List Piece × Value)} {m : List Piece × Value}

theorem exists_of_mem_separated {α : Type} {P : α → List Char → Prop} {xs : List α} {x : α}
    (h : Separated P xs cs) (hx : x ∈ xs) : ∃ ds, P x ds := by
  induction h with
  | last h =>
    obtain rfl := List.mem_singleton.1 hx
    exact ⟨_, h⟩
  | more h _ ih =>
    rcases List.mem_cons.1 hx with rfl | hx
    · exact ⟨_, h⟩
    · exact ih hx

theorem decode_string_iff {body : List Piece} {name : List Char} (h : Element (.string body) cs) :
    Piece.decode body = some name ↔ Says body name := by
  cases h with
  | padded _ h _ =>
    cases h with
    | string h => exact decode_eq_some_iff_of_literal h

theorem exists_element_of_array {items : List Value} (h : Element (.array items) cs)
    (hv : v ∈ items) : ∃ ds, Element v ds := by
  cases h with
  | padded _ h _ =>
    cases h with
    | emptyArray _ => cases hv
    | array h => exact exists_of_mem_separated h hv

theorem exists_member_of_object (h : Element (.object members) cs) (hm : m ∈ members) :
    ∃ ds, Member m ds := by
  cases h with
  | padded _ h _ =>
    cases h with
    | emptyObject _ => cases hm
    | object h => exact exists_of_mem_separated h hm

theorem exists_value_of_object (h : Element (.object members) cs) (hm : m ∈ members) :
    ∃ ds, Element m.2 ds := by
  obtain ⟨ds, hds⟩ := exists_member_of_object h hm
  cases hds with
  | keyed _ _ _ hv => exact ⟨_, hv⟩

theorem decode_key_iff {name : List Char} (h : Element (.object members) cs) (hm : m ∈ members) :
    Piece.decode m.1 = some name ↔ Says m.1 name := by
  obtain ⟨ds, hds⟩ := exists_member_of_object h hm
  cases hds with
  | keyed _ hk _ _ => exact decode_eq_some_iff_of_literal hk

end RenderGuard.Json
