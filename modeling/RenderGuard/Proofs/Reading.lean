import RenderGuard.Component

/-! What decides about a component, said by the names that are read for it. -/
namespace RenderGuard

open Component

namespace Tree

/-- The text of a string literal. -/
def literal? : Tree → Option String
  | stringLiteral value _ => some value
  | _ => none

theorem isNamed_method (name : String) (key : Tree) (isStatic : Bool) (function : Tree)
    (attrs : List (String × Tree)) :
    isNamed name (method key isStatic function attrs) = (identifierName? key == some name) := by
  cases key <;> simp [isNamed, identifierName?]

theorem isQuoted_method (name : String) (key : Tree) (isStatic : Bool) (function : Tree)
    (attrs : List (String × Tree)) :
    isQuoted name (method key isStatic function attrs) = (key.literal? == some name) := by
  cases key <;> simp [isQuoted, literal?]

theorem isPropsOnly_singleton (param : Tree) :
    isPropsOnly [param] = (identifierName? param == some "props") := by
  cases param <;> simp [isPropsOnly, identifierName?]

/-- Whether an expression without parentheses around it names one of the bases. -/
def namesBase : Tree → Bool
  | identifier name _ => isBaseName name
  | memberAccess object property _ =>
    identifierName? object == some "React" && (identifierName? property).any isBaseName
  | _ => false

theorem isBase_eq (superClass : Tree) :
    isBase superClass = superClass.unparenthesized.namesBase := by
  rw [isBase]
  generalize superClass.unparenthesized = u
  cases u with
  | memberAccess object property attrs =>
    cases object <;> cases property <;> simp [namesBase, identifierName?]
  | _ => rfl

end Tree

namespace Component

variable {α β : Type} {p : α → Bool} {as : List α} {i : Nat}

theorem lastIndex?_map (p : β → Bool) (k : α → β) (as : List α) :
    lastIndex? p (as.map k) = lastIndex? (p ∘ k) as := by
  induction as with
  | nil => rfl
  | cons a as ih => simp only [List.map_cons, lastIndex?, ih, Function.comp_apply]

theorem exists_of_lastIndex? (h : lastIndex? p as = some i) : ∃ a, as[i]? = some a ∧ p a := by
  induction as generalizing i with
  | nil => cases h
  | cons a as ih =>
    simp only [lastIndex?] at h
    split at h
    · next j hj =>
      cases h
      exact ih hj
    · split at h
      · next ha =>
        cases h
        exact ⟨a, rfl, ha⟩
      · cases h

theorem any_eq_isSome_lastIndex? (p : α → Bool) (as : List α) :
    as.any p = (lastIndex? p as).isSome := by
  induction as with
  | nil => rfl
  | cons a as ih =>
    rw [List.any_cons, ih, lastIndex?]
    cases lastIndex? p as with
    | some j => simp
    | none => cases p a <;> rfl

theorem any_of_lastIndex?_eq_some (h : lastIndex? p as = some i) : as.any p = true := by
  rw [any_eq_isSome_lastIndex?, h]
  rfl

theorem eq_false_of_lastIndex?_lt {j : Nat} {a : α} (h : lastIndex? p as = some i) (hj : i < j)
    (ha : as[j]? = some a) : p a = false := by
  induction as generalizing i j with
  | nil => cases h
  | cons b as ih =>
    obtain ⟨k, rfl⟩ : ∃ k, j = k + 1 := ⟨j - 1, by omega⟩
    rw [List.getElem?_cons_succ] at ha
    simp only [lastIndex?] at h
    split at h
    · next i' hi' =>
      cases h
      exact ih hi' (by omega) ha
    · next hnone =>
      have hany : as.any p = false := by rw [any_eq_isSome_lastIndex?, hnone]; rfl
      simpa using List.any_eq_false.1 hany a (List.mem_of_getElem? ha)

/-- The last index is the one after which nothing satisfies `p` any more. -/
theorem lastIndex?_eq_some_iff : lastIndex? p as = some i ↔
    (∃ a, as[i]? = some a ∧ p a = true) ∧ ∀ j a, i < j → as[j]? = some a → p a = false := by
  constructor
  · intro h
    exact ⟨exists_of_lastIndex? h, fun j a => eq_false_of_lastIndex?_lt h⟩
  · rintro ⟨⟨a, ha, hp⟩, hafter⟩
    have hany : as.any p = true := List.any_eq_true.2 ⟨a, List.mem_of_getElem? ha, hp⟩
    rw [any_eq_isSome_lastIndex?, Option.isSome_iff_exists] at hany
    obtain ⟨k, hk⟩ := hany
    obtain ⟨b, hb, hpb⟩ := exists_of_lastIndex? hk
    rcases Nat.lt_trichotomy k i with hlt | rfl | hlt
    · rw [eq_false_of_lastIndex?_lt hk hlt ha] at hp
      cases hp
    · exact hk
    · rw [hafter k b hlt hb] at hpb
      cases hpb

end Component

end RenderGuard
