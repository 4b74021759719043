import RenderGuard.Proofs.Change

/-! What a run reports, told by the components of the program before it starts. -/
namespace RenderGuard

open Component Fragment Traced
open scoped List

variable {p : Program} {options : Options}

/-- What a host sees of an event. -/
structure Report where
  level : Level
  message : String
  component? : Option String
  specifier? : Option String

def Event.report (e : Event) : Report := ⟨e.level, e.message, e.component?, e.specifier?⟩

namespace Tree

/-- The name that reports give a class. -/
def reportedName (name : Tree) : String := (identifierName? name).getD "<anonymous>"

/-- What a run has to report of a node, as it is before the run. -/
def account : Tree → List Report
  | classDef _ name superClass members _ =>
    if isBase superClass then
      if members.any isMarker then
        [⟨.trace, "class component already wrapped", some (reportedName name), none⟩]
      else if members.any (isNamed renderName) then
        [⟨.debug, "wrapped class component render", some (reportedName name), none⟩]
      else []
    else []
  | arrow params _ _ =>
    if isPropsOnly params then [⟨.debug, "wrapped arrow function component", none, none⟩] else []
  | _ => []

theorem map_report_events_wrapNode (t : Tree) :
    (wrapNode t).events.map Event.report = t.account := by
  cases t with
  | classDef form name superClass members attrs =>
    rw [wrapNode_classDef]
    rcases wrapClass_cases form name superClass members attrs with
      ⟨hb, hm, he⟩ | ⟨hb, hm, i, hi, he⟩ | ⟨hn, he⟩
    · simp only [he, account, hb, hm, if_true]
      rfl
    · have hr : members.any (isNamed renderName) = true := any_of_lastIndex?_eq_some hi
      simp only [he, account, hb, hm, hr, if_true]
      rfl
    · cases hb : isBase superClass with
      | false => simp [he, account, hb]
      | true =>
        obtain ⟨hr, hm⟩ :
            members.any (isNamed renderName) = false ∧ members.any isMarker = false := by
          simpa only [hb, Bool.true_and, Bool.or_eq_false_iff] using hn
        simp [he, account, hr, hm]
  | arrow params body attrs =>
    rw [wrapNode_arrow]
    rcases wrapArrow_cases params body attrs with ⟨hp, he⟩ | ⟨hp, he⟩
    · simp only [he, account, hp, if_true]
      rfl
    · simp [he, account, hp]
  | _ => rfl

/-- The reports at debug level are those of a component that is wrapped. -/
theorem any_debug_account (t : Tree) : t.account.any (·.level == .debug) = t.isUnguarded := by
  cases t with
  | classDef form name superClass members attrs =>
    simp only [account, isUnguarded]
    cases isBase superClass <;> cases members.any isMarker <;>
      cases members.any (isNamed renderName) <;> rfl
  | arrow params body attrs =>
    simp only [account, isUnguarded]
    cases isPropsOnly params <;> rfl
  | _ => rfl

end Tree

namespace Program

open RenderGuard.Tree (rewrite_wrapNode)

/-- What a run with these options has to report: of each node, and of the binding if some component
is wrapped and the options name a handler. -/
def account (p : Program) (options : Options) : List Report :=
  p.nodes.flatMap Tree.account ++
    if (p.nodes.flatMap Tree.account).any (·.level == .debug) then
      options.handler?.toList.map fun specifier =>
        ⟨.debug, "injected render error handler binding", none, some specifier⟩
    else []

theorem any_debug_flatMap_account (p : Program) :
    (p.nodes.flatMap Tree.account).any (·.level == .debug) = p.wrap.wrapped := by
  rw [List.any_flatMap, wrap_eq_pass, wrapped_pass_eq rewrite_wrapNode]
  simp only [Tree.any_debug_account, Tree.wrapped_wrapNode_eq]

theorem events_bindHandler (p : Program) (needed : Bool) (options : Options) (context : Nat) :
    (p.bindHandler needed options context).events =
      if needed then options.handler?.toList.map .boundHandler else [] := by
  rw [bindHandler]
  cases needed with
  | false => rfl
  | true => cases options.handler? <;> rfl

/-- A run reports what wrapping reports and then the binding, whether it succeeds or not. -/
theorem events_apply (p : Program) (options : Options) (context : Nat) :
    (p.apply options context).events = p.wrap.events ++
      if p.wrap.wrapped then options.handler?.toList.map .boundHandler else [] := by
  rw [apply]
  simp only [events_bind, events_listen, value_listen, events_bindHandler]
  cases (p.wrap.value.bindHandler p.wrap.wrapped options context).value with
  | ok bound => rw [events_pure, List.append_nil]
  | error e => rw [events_pure, List.append_nil]

theorem events_transform (p : Program) (options : Options) :
    (p.transform options).events = (p.apply options 0).events := List.append_nil _

/-- The reports of a run, whatever comes of it, are up to their order those that the components of
the program call for as they are before the run. -/
theorem reports_account_for_components (p : Program) (options : Options) (context : Nat) :
    ((p.apply options context).events.map Event.report).Perm (p.account options) ∧
      ((p.transform options).events.map Event.report).Perm (p.account options) := by
  have hrun : ∀ n, ((p.apply options n).events.map Event.report).Perm (p.account options) := by
    intro n
    have hwrap : p.wrap.events.map Event.report ~ p.nodes.flatMap Tree.account := by
      have hnodes := (events_pass_perm rewrite_wrapNode p).map Event.report
      rw [List.map_flatMap] at hnodes
      simpa only [wrap_eq_pass, Tree.map_report_events_wrapNode] using hnodes
    rw [events_apply, List.map_append, account, any_debug_flatMap_account]
    refine hwrap.append (List.Perm.of_eq ?_)
    split
    · rw [List.map_map]
      rfl
    · rfl
  refine ⟨hrun context, ?_⟩
  rw [events_transform]
  exact hrun 0

end Program

end RenderGuard
