import RenderGuard.Proofs.Programs

/-! Which classes are components. The code inside a class has no say in it. -/
namespace RenderGuard

open Component Fragment Traced

namespace Tree

variable {t base superClass : Tree} {n : Nat}

/-- The expression is `base` with that many pairs of parentheses around the whole of it. -/
inductive Enclosed (base : Tree) : Nat → Tree → Prop
  | bare : Enclosed base 0 base
  | layer {n : Nat} {inner : Tree} (attrs : List (String × Tree)) :
    Enclosed base n inner → Enclosed base (n + 1) (parenthesized inner attrs)

/-- A base of components: a variable of that name, or the property of that name of the variable
`React`, with no parentheses inside. -/
inductive BaseExpression : Tree → Prop
  | named {name : String} (attrs : List (String × Tree)) :
    name = "Component" ∨ name = "PureComponent" → BaseExpression (identifier name attrs)
  | ofReact {name : String} (objectAttrs propertyAttrs attrs : List (String × Tree)) :
    name = "Component" ∨ name = "PureComponent" →
    BaseExpression
      (memberAccess (identifier "React" objectAttrs) (identifier name propertyAttrs) attrs)

theorem isBaseName_iff {name : String} :
    isBaseName name = true ↔ name = "Component" ∨ name = "PureComponent" := by
  simp [isBaseName]

theorem namesBase_iff : t.namesBase = true ↔ BaseExpression t := by
  constructor
  · intro h
    cases t with
    | identifier name attrs => exact .named attrs (isBaseName_iff.1 h)
    | memberAccess object property attrs =>
      obtain ⟨hobject, hproperty⟩ := (Bool.and_eq_true _ _).mp h
      cases object with
      | identifier react objectAttrs =>
        obtain rfl : react = "React" := by simpa [identifierName?] using hobject
        cases property with
        | identifier name propertyAttrs =>
          exact .ofReact objectAttrs propertyAttrs attrs (isBaseName_iff.1 hproperty)
        | _ => cases hproperty
      | _ => cases hobject
    | _ => cases h
  · intro h
    cases h with
    | named attrs hn => exact isBaseName_iff.2 hn
    | ofReact objectAttrs propertyAttrs attrs hn => exact isBaseName_iff.2 hn

theorem enclosed_unparenthesized (t : Tree) : ∃ n, Enclosed t.unparenthesized n t := by
  fun_induction unparenthesized t with
  | case1 inner attrs ih =>
    obtain ⟨n, hn⟩ := ih
    exact ⟨n + 1, .layer attrs hn⟩
  | case2 t _ => exact ⟨0, .bare⟩

theorem Enclosed.unparenthesized_eq (h : Enclosed base n t) :
    t.unparenthesized = base.unparenthesized := by
  induction h with
  | bare => rfl
  | layer attrs _ ih => exact ih

theorem BaseExpression.unparenthesized_eq (h : BaseExpression t) : t.unparenthesized = t := by
  cases h <;> rfl

theorem isBase_iff :
    isBase superClass = true ↔ ∃ n base, Enclosed base n superClass ∧ BaseExpression base := by
  rw [isBase_eq, namesBase_iff]
  constructor
  · intro h
    obtain ⟨n, hn⟩ := superClass.enclosed_unparenthesized
    exact ⟨n, _, hn, h⟩
  · rintro ⟨n, base, hn, hb⟩
    rw [hn.unparenthesized_eq, hb.unparenthesized_eq]
    exact hb

example : isBase (memberAccess (parenthesized (identifier "React" []) [])
    (identifier "Component" []) []) = false := by decide

/-- The step at a class comes after those at the code inside it, and decides as if it came first. -/
theorem after_wrapNode_classDef (form : ClassForm) (name superClass : Tree) (members : List Tree)
    (attrs : List (String × Tree)) :
    (classDef form name superClass members attrs).after wrapNode =
      classDef form (name.after wrapNode) (superClass.after wrapNode)
        (match isBase superClass, locateRender members with
          | true, ⟨some i, false⟩ => guardMembers i (members.map (after wrapNode))
          | _, _ => members.map (after wrapNode))
        (mapFields (after wrapNode) attrs) := by
  have hpass : LocalPass wrapNode := rewrite_wrapNode.toLocalPass
  rw [after_eq, mapChildren, wrapNode_classDef]
  simp only [wrapClass, hpass.isBase_after, hpass.locateRender_map]
  cases isBase superClass with
  | false => rfl
  | true =>
    obtain ⟨index?, wrapped⟩ := locateRender members
    cases wrapped <;> cases index? <;> rfl

end Tree

namespace Program

open RenderGuard.Tree

/-- A class is a component if it extends a base of components, in any number of parentheses, and
wrapping decides about it as it stands in the source. -/
theorem classes_are_judged_as_written :
    (∀ superClass, isBase superClass = true ↔
      ∃ n base, Enclosed base n superClass ∧ BaseExpression base) ∧
    ∀ (p : Program) (k : Nat) (form : ClassForm) (name superClass : Tree) (members : List Tree)
      (attrs : List (String × Tree)),
      p.sites[k]? = some (classDef form name superClass members attrs) →
      isBase superClass.wrap.value = isBase superClass ∧
      (locateRender (wrapAll members).value).alreadyWrapped =
        (locateRender members).alreadyWrapped ∧
      (locateRender (wrapAll members).value).renderIndex = (locateRender members).renderIndex ∧
      p.wrap.value.sites[k]? = some
        (classDef form name.wrap.value superClass.wrap.value
          (match isBase superClass, locateRender members with
            | true, ⟨some i, false⟩ => guardMembers i (wrapAll members).value
            | _, _ => (wrapAll members).value)
          (traverseFields wrapNode attrs).value) := by
  have hpass : LocalPass wrapNode := rewrite_wrapNode.toLocalPass
  refine ⟨fun superClass => isBase_iff, ?_⟩
  intro p k form name superClass members attrs hk
  have hlookup : locateRender (wrapAll members).value = locateRender members := by
    rw [wrapAll, value_traverseAll, hpass.locateRender_map]
  refine ⟨hpass.isBase_after superClass, by rw [hlookup], by rw [hlookup], ?_⟩
  rw [wrap_eq_pass, sites_pass rewrite_wrapNode, List.getElem?_map, hk, Option.map_some,
    after_wrapNode_classDef, wrapAll, value_traverseAll, value_traverseFields]
  rfl

/-- `(React.Component)` -/
def enclosedBase : Tree :=
  parenthesized (memberAccess (identifier "React" []) (identifier "Component" []) []) []

/-- `[props => 0]() {}` and `render() {}` -/
def keyedMembers : List Tree :=
  [method (node "Computed" [("expression", arrow [identifier "props" []]
      (node "NumericLiteral" [("value", leaf (.number "0"))]) [])]) false (record []) [],
    method (identifier "render" []) false (record []) []]

/-- `class Foo extends (React.Component) { [props => 0]() {} render() {} }` -/
def keyedSample : Program where
  kind := .script
  span := ⟨1, 70⟩
  interpreter := none
  body := [classDef .declaration (identifier "Foo" []) enclosedBase keyedMembers []]

theorem classes_are_judged_as_written_sample :
    (∃ n base, Enclosed base n enclosedBase ∧ BaseExpression base) ∧
    keyedSample.sites[0]? =
      some (classDef .declaration (identifier "Foo" []) enclosedBase keyedMembers []) ∧
    locateRender (wrapAll keyedMembers).value = ⟨some 1, false⟩ ∧
    keyedSample.wrap.value.sites[0]? =
      some (classDef .declaration (identifier "Foo" []) enclosedBase
        (guardMembers 1 (wrapAll keyedMembers).value) []) := by
  obtain ⟨hexact, hstable⟩ := classes_are_judged_as_written
  have hk : keyedSample.sites[0]? =
      some (classDef .declaration (identifier "Foo" []) enclosedBase keyedMembers []) := rfl
  obtain ⟨-, hmarker, hindex, hsite⟩ := hstable keyedSample 0 _ _ _ _ _ hk
  refine ⟨(hexact enclosedBase).1 (by decide), hk, ?_, hsite⟩
  calc locateRender (wrapAll keyedMembers).value
    _ = ⟨(locateRender (wrapAll keyedMembers).value).renderIndex,
        (locateRender (wrapAll keyedMembers).value).alreadyWrapped⟩ := rfl
    _ = locateRender keyedMembers := by rw [hindex, hmarker]
    _ = ⟨some 1, false⟩ := by decide

end Program

end RenderGuard
