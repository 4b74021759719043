import RenderGuard.Proofs.Delegation
import RenderGuard.Proofs.Relocation

/-! The members of a wrapped class, one by one. -/
namespace RenderGuard

open Component Fragment Traced

namespace Tree

variable {name old : String} {m : Tree} {members : List Tree} {i j : Nat}

theorem isNamed_renamed_of_ne (h : isNamed old m = true) (hne : name ≠ old) :
    isNamed old (renamed name m) = false := by
  obtain ⟨nameAttrs, isStatic, function, attrs, rfl⟩ := exists_of_isNamed h
  simpa [renamed, isNamed] using hne

/-- The marker is at the place of the render and nowhere else. -/
theorem isMarker_guardMembers_iff (hi : lastIndex? (isNamed renderName) members = some i)
    (hfresh : members.any isMarker = false) (hm : (guardMembers i members)[j]? = some m) :
    isMarker m = true ↔ j = i + 1 := by
  cases j with
  | zero =>
    obtain rfl : delegatingRender = m := Option.some.inj hm
    exact iff_of_false (by decide) (Nat.succ_ne_zero i).symm
  | succ j =>
    rw [getElem?_guardMembers_succ] at hm
    obtain ⟨a, ha, rfl⟩ := Option.map_eq_some_iff.1 hm
    by_cases hj : i = j
    · subst hj
      obtain ⟨render, hrender, hn⟩ := exists_of_lastIndex? hi
      obtain rfl : a = render := Option.some.inj (ha.symm.trans hrender)
      simp [isMarker, isNamed_renamed marker hn]
    · have hold : isMarker a = false := by
        simpa using List.any_eq_false.1 hfresh a (List.mem_of_getElem? ha)
      rw [if_neg hj, hold]
      exact iff_of_false Bool.false_ne_true fun he => hj (Nat.succ.inj he).symm

/-- A render behind the new one stood before the one that is renamed. -/
theorem lt_of_isNamed_guardMembers (hi : lastIndex? (isNamed renderName) members = some i)
    (hm : (guardMembers i members)[j + 1]? = some m) (hn : isNamed renderName m = true) :
    j < i ∧ members[j]? = some m := by
  rw [getElem?_guardMembers_succ] at hm
  obtain ⟨a, ha, rfl⟩ := Option.map_eq_some_iff.1 hm
  rcases Nat.lt_trichotomy j i with hlt | rfl | hlt
  · rw [if_neg (Nat.ne_of_gt hlt)]
    exact ⟨hlt, ha⟩
  · obtain ⟨render, hrender, hr⟩ := exists_of_lastIndex? hi
    obtain rfl : a = render := Option.some.inj (ha.symm.trans hrender)
    rw [if_pos rfl, isNamed_renamed_of_ne hr (by decide)] at hn
    cases hn
  · rw [if_neg (Nat.ne_of_lt hlt), eq_false_of_lastIndex?_lt hi hlt ha] at hn
    cases hn

theorem alreadyWrapped_guardMembers (hi : lastIndex? (isNamed renderName) members = some i) :
    (locateRender (guardMembers i members)).alreadyWrapped = true := any_isMarker_guardMembers hi

theorem renderIndex_guardMembers_succ (hi : lastIndex? (isNamed renderName) members = some i)
    (hj : j < i) (hm : members[j]? = some m) (hn : isNamed renderName m = true)
    (hbetween : ∀ k a, j < k → k < i → members[k]? = some a → isNamed renderName a = false) :
    (locateRender (guardMembers i members)).renderIndex = some (j + 1) := by
  refine lastIndex?_eq_some_iff.2 ⟨⟨m, ?_, hn⟩, ?_⟩
  · rw [getElem?_guardMembers_succ, hm, Option.map_some, if_neg (Nat.ne_of_gt hj)]
  · intro k a hk ha
    obtain ⟨k, rfl⟩ := Nat.exists_eq_add_of_lt (Nat.zero_lt_of_lt hk)
    rw [Nat.zero_add] at hk ha
    by_contra hnamed
    obtain ⟨hlt, hold⟩ := lt_of_isNamed_guardMembers hi ha (by simpa using hnamed)
    exact hnamed (hbetween k a (Nat.lt_of_succ_lt_succ hk) hlt hold)

theorem renderIndex_guardMembers_zero (hi : lastIndex? (isNamed renderName) members = some i)
    (hbefore : ∀ j a, j < i → members[j]? = some a → isNamed renderName a = false) :
    (locateRender (guardMembers i members)).renderIndex = some 0 := by
  refine lastIndex?_eq_some_iff.2 ⟨⟨delegatingRender, rfl, by decide⟩, ?_⟩
  intro k a hk ha
  obtain ⟨k, rfl⟩ := Nat.exists_eq_add_of_lt hk
  rw [Nat.zero_add] at ha
  by_contra hnamed
  obtain ⟨hlt, hold⟩ := lt_of_isNamed_guardMembers hi ha (by simpa using hnamed)
  exact hnamed (hbefore k a hlt hold)

theorem wrapClass_of_locateRender {superClass : Tree} (form : ClassForm) (className : Tree)
    (attrs : List (String × Tree)) (hb : isBase superClass = true)
    (hl : locateRender members = ⟨some i, false⟩) :
    wrapClass (classDef form className superClass members attrs) =
      ⟨classDef form className superClass (guardMembers i members) attrs,
        [.wrappedClass (identifierName? className)], true⟩ := by
  simp only [wrapClass, hb, hl, if_true]
  rfl

/-- A render, a block that is no method, and a static render after them. -/
def mixedMembers : List Tree :=
  [renderAt 31 42 false, node "StaticBlock" [("body", block ⟨43, 52⟩ 0 [])], renderAt 53 71 true]

end Tree

end RenderGuard
