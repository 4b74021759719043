import RenderGuard.Proofs.Json.Literals

/-! The spellings of a text between quotes. All of them read back as that text. -/
namespace RenderGuard.Json

variable {ps qs : List Piece} {cs w w' : List Char} {c : Char} {u v : Nat}

/-- The ways to write one character: as it is or with a short escape, by its number, and above 16
bits by the numbers of its two halves. -/
inductive CharSpelling : Char → List Char → Prop where
  | char {c : Char} {w : List Char} (h : (Piece.char c).Written w) : CharSpelling c w
  | unit {c : Char} {w : List Char} (h : (Piece.unit c.toNat).Written w) : CharSpelling c w
  | pair {c : Char} {high low : Nat} {w w' : List Char} (hc : codeUnits c = [high, low])
      (hh : (Piece.unit high).Written w) (hl : (Piece.unit low).Written w') :
      CharSpelling c (w ++ w')

/-- The ways to write a text between quotes. -/
inductive Spelling : List Char → List Char → Prop where
  | nil : Spelling [] []
  | cons {c : Char} {cs w ws : List Char} (hc : CharSpelling c w) (h : Spelling cs ws) :
      Spelling (c :: cs) (w ++ ws)

theorem body_append (h : Body ps w) (h' : Body qs w') : Body (ps ++ qs) (w ++ w') := by
  induction h with
  | nil => exact h'
  | cons hp _ ih =>
    rw [List.cons_append, List.append_assoc]
    exact .cons hp ih

theorem body_singleton {p : Piece} (h : p.Written w) : Body [p] w := by
  have hbody := Body.cons h .nil
  rwa [List.append_nil] at hbody

theorem body_map_char (h : ∀ c ∈ cs, (Piece.char c).Written [c]) : Body (cs.map .char) cs := by
  induction cs with
  | nil => exact .nil
  | cons c cs ih => exact .cons (h c List.mem_cons_self) (ih fun d hd => h d (.tail _ hd))

theorem pieces?_iff_body : pieces? [] (w ++ ['"']) = some (ps, []) ↔ Body ps w := by
  rw [pieces?_eq_some_iff]
  constructor
  · rintro ⟨w', hbody, heq⟩
    rwa [List.append_cancel_right heq]
  · intro hbody
    exact ⟨w, hbody, rfl⟩

instance : Decidable (Body ps w) := decidable_of_iff _ pieces?_iff_body

/-- Between quotes, the same characters are always the same pieces. -/
theorem body_unique (h : Body ps w) (h' : Body qs w) : ps = qs := by
  have heq := (pieces?_iff_body.2 h).symm.trans (pieces?_iff_body.2 h')
  exact (Prod.mk.inj (Option.some.inj heq)).1

theorem exists_body_of_charSpelling (h : CharSpelling c w) : ∃ ps, Body ps w ∧ Says ps [c] := by
  cases h with
  | char h => exact ⟨_, body_singleton h, rfl⟩
  | unit h =>
    have hunits : codeUnits c = [c.toNat] := if_pos (Piece.lt_of_written h)
    exact ⟨_, body_singleton h, by simp [Says, Piece.units, hunits]⟩
  | pair hc hh hl =>
    exact ⟨_, body_append (body_singleton hh) (body_singleton hl), by simp [Says, Piece.units, hc]⟩

theorem exists_body_of_spelling (h : Spelling cs w) : ∃ ps, Body ps w ∧ Says ps cs := by
  induction h with
  | nil => exact ⟨[], .nil, rfl⟩
  | cons hc _ ih =>
    obtain ⟨ps, hps, hsays⟩ := exists_body_of_charSpelling hc
    obtain ⟨qs, hqs, hrest⟩ := ih
    exact ⟨ps ++ qs, body_append hps hqs, (Piece.says_append_iff hsays).2 ⟨_, hrest, rfl⟩⟩

theorem spelling_of_decode (h : Body ps w) (hd : Piece.decode ps = some cs) : Spelling cs w := by
  -- Each case that has a text reads one character, of one piece or of the two of a pair.
  fun_induction Piece.decode ps generalizing w cs with
  | case1 =>
    cases h
    cases hd
    exact .nil
  | case2 c rest ih =>
    obtain ⟨ds, hds, rfl⟩ := Option.map_eq_some_iff.1 hd
    cases h with
    | cons hp hrest => exact .cons (.char hp) (ih hrest hds)
  | case3 u hu v rest hv ih =>
    obtain ⟨ds, hds, rfl⟩ := Option.map_eq_some_iff.1 hd
    cases h with
    | cons hp h =>
      cases h with
      | cons hq hrest =>
        rw [← List.append_assoc]
        exact .cons (.pair (Piece.codeUnits_pair hu hv) hp hq) (ih hrest hds)
  | case4 => cases hd
  | case5 => cases hd
  | case6 => cases hd
  | case7 u rest hu hl ih =>
    obtain ⟨ds, hds, rfl⟩ := Option.map_eq_some_iff.1 hd
    cases h with
    | cons hp hrest =>
      have hnum : (Char.ofNat u).toNat = u :=
        Piece.toNat_ofNat_of_no_half (Piece.lt_of_written hp) (by simpa using hu)
          (by simpa using hl)
      exact .cons (.unit (by rwa [hnum])) (ih hrest hds)

theorem decode_map_char (cs : List Char) : Piece.decode (cs.map .char) = some cs := by
  refine (Piece.decode_eq_some_iff fun u hu => ?_).2 (List.flatMap_map ..)
  obtain ⟨c, -, hc⟩ := List.mem_map.1 hu
  cases hc

/-- What stands between quotes spells a text exactly if that is what is read from it. -/
theorem spelling_iff (h : Body ps w) : Spelling cs w ↔ Piece.decode ps = some cs := by
  constructor
  · intro hs
    obtain ⟨qs, hqs, hsays⟩ := exists_body_of_spelling hs
    obtain rfl := body_unique h hqs
    exact (decode_eq_some_iff_of_literal (.quoted h)).2 hsays
  · exact spelling_of_decode h

/-- The text of what stands between quotes. -/
def spelled? (w : List Char) : Option (List Char) :=
  match pieces? [] (w ++ ['"']) with
  | some (ps, []) => Piece.decode ps
  | _ => none

theorem spelled?_eq_some_iff : spelled? w = some cs ↔ Spelling cs w := by
  constructor
  · intro h
    rw [spelled?] at h
    split at h
    · next hps => exact spelling_of_decode (pieces?_iff_body.1 hps) h
    · cases h
  · intro h
    obtain ⟨ps, hbody, -⟩ := exists_body_of_spelling h
    rw [spelled?, pieces?_iff_body.2 hbody]
    exact (spelling_iff hbody).1 h

instance : Decidable (Spelling cs w) := decidable_of_iff _ spelled?_eq_some_iff

namespace Piece

/-- Whether an escaped half of a pair does not stand next to its other half. -/
def LoneHalf (ps : List Piece) : Prop :=
  ∃ before u after, ps = before ++ unit u :: after ∧
    ((isHigh u = true ∧ ∀ v rest, after = unit v :: rest → isLow v = false) ∨
      (isLow u = true ∧ ∀ init v, before = init ++ [unit v] → isHigh v = false))

/-- Pieces in which no half is alone do not end with a half that waits for another, so in front of
other pieces they make no difference. -/
theorem loneHalf_append_iff (h : ¬ LoneHalf qs) : LoneHalf (qs ++ ps) ↔ LoneHalf ps := by
  constructor
  · rintro ⟨before, u, after, heq, hlone⟩
    rcases List.append_eq_append_iff.1 heq with ⟨gap, rfl, hps⟩ | ⟨gap, rfl, hafter⟩
    -- The half is among the later pieces; the piece before it may still be the last of `qs`.
    · refine ⟨gap, u, after, hps, hlone.imp_right fun ⟨hl, hbefore⟩ => ⟨hl, ?_⟩⟩
      rintro init v rfl
      exact hbefore (qs ++ init) v (List.append_assoc _ _ _).symm
    · cases gap with
      | nil =>
        refine ⟨[], u, after, hafter.symm, hlone.imp_right fun ⟨hl, _⟩ => ⟨hl, ?_⟩⟩
        intro init v hnil
        cases init <;> cases hnil
      | cons p gap =>
        obtain ⟨rfl, rfl⟩ := List.cons.inj hafter
        refine absurd ⟨before, u, gap, rfl, hlone.imp_left fun ⟨hu, hnext⟩ => ⟨hu, ?_⟩⟩ h
        rintro v rest rfl
        exact hnext v (rest ++ ps) rfl
  · rintro ⟨before, u, after, rfl, hlone⟩
    refine ⟨qs ++ before, u, after, (List.append_assoc _ _ _).symm,
      hlone.imp_right fun ⟨hl, hbefore⟩ => ⟨hl, ?_⟩⟩
    intro init v heq
    rcases List.eq_nil_or_concat before with rfl | ⟨front, p, rfl⟩
    -- A high half at the end of `qs` would be alone there.
    · rw [List.append_nil] at heq
      by_contra hv
      exact h ⟨init, v, [], heq, Or.inl ⟨by simpa using hv, by simp⟩⟩
    · rw [List.concat_eq_append, ← List.append_assoc] at heq
      obtain ⟨-, hp⟩ := List.append_inj' heq rfl
      exact hbefore front v (by rw [List.concat_eq_append, List.singleton_inj.1 hp])

theorem not_loneHalf_nil : ¬ LoneHalf [] := by
  rintro ⟨before, u, after, heq, -⟩
  simp at heq

theorem not_loneHalf_char (c : Char) : ¬ LoneHalf [char c] := by
  rintro ⟨before, u, after, heq, -⟩
  have hmem : unit u ∈ [char c] := by simp [heq]
  simp at hmem

theorem not_loneHalf_pair (hu : isHigh u = true) (hv : isLow v = true) :
    ¬ LoneHalf [unit u, unit v] := by
  rintro ⟨before, w, after, heq, hlone⟩
  rcases before with _ | ⟨p, _ | ⟨q, before⟩⟩
  · cases heq
    rcases hlone with ⟨-, hnext⟩ | ⟨hl, -⟩
    · cases hv.symm.trans (hnext v [] rfl)
    · cases hl.symm.trans (isLow_of_isHigh hu)
  · cases heq
    rcases hlone with ⟨hh, -⟩ | ⟨-, hbefore⟩
    · cases hv.symm.trans (isLow_of_isHigh hh)
    · cases hu.symm.trans (hbefore [] u rfl)
  · simp at heq

theorem not_loneHalf_unit (hu : isHigh u = false) (hv : isLow u = false) : ¬ LoneHalf [unit u] := by
  rintro ⟨before, w, after, heq, hlone⟩
  have hmem : unit w ∈ [unit u] := by simp [heq]
  obtain rfl : w = u := by simpa using hmem
  simp [hu, hv] at hlone

theorem loneHalf_cons_of_isLow (hu : isLow u = true) : LoneHalf (unit u :: ps) :=
  ⟨[], u, ps, rfl, Or.inr ⟨hu, by simp⟩⟩

theorem loneHalf_cons_of_isHigh (hu : isHigh u = true)
    (hnext : ∀ v rest, ps = unit v :: rest → isLow v = false) : LoneHalf (unit u :: ps) :=
  ⟨[], u, ps, rfl, Or.inl ⟨hu, hnext⟩⟩

/-- A literal has no text exactly if half of a pair stands alone in it. -/
theorem decode_eq_none_iff : decode ps = none ↔ LoneHalf ps := by
  fun_induction decode ps with
  | case1 => exact iff_of_false (by simp) not_loneHalf_nil
  | case2 c rest ih =>
    rw [Option.map_eq_none_iff, ih]
    exact (loneHalf_append_iff (not_loneHalf_char c)).symm
  | case3 u hu v rest hv ih =>
    rw [Option.map_eq_none_iff, ih]
    exact (loneHalf_append_iff (not_loneHalf_pair hu hv)).symm
  | case4 u hu v rest hv =>
    refine iff_of_true rfl (loneHalf_cons_of_isHigh hu ?_)
    rintro _ _ ⟨⟩
    simpa using hv
  | case5 u rest hu hrest =>
    refine iff_of_true rfl (loneHalf_cons_of_isHigh hu ?_)
    intro v after heq
    exact absurd heq (hrest v after)
  | case6 u rest hu hl => exact iff_of_true rfl (loneHalf_cons_of_isLow hl)
  | case7 u rest hu hl ih =>
    rw [Option.map_eq_none_iff, ih]
    exact (loneHalf_append_iff (not_loneHalf_unit (by simpa using hu) (by simpa using hl))).symm

instance : Decidable (LoneHalf ps) := decidable_of_iff _ decode_eq_none_iff

end Piece

end RenderGuard.Json
