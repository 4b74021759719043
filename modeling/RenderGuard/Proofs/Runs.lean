import Mathlib.Data.List.Induction
import RenderGuard.Proofs.Positions
import RenderGuard.Proofs.Steps

/-! The kept program after any run, in closed form. Histories have the last step first. -/
namespace RenderGuard

open RenderGuard.Tree Component Fragment Traced

variable {p : Program} {t : Tree} {a : Step} {past : List Step}

/-- Whether the step wraps the program. -/
def Step.wraps : Step → Bool
  | .apply .. | .wrap | .compile .. => true
  | .bind .. | .reset => false

/-- Whether a step says that it failed. -/
def Reply.fails : Reply → Bool
  | .failed _ => true
  | .compiled diagnostics => !diagnostics.isEmpty
  | .done | .applied _ => false

/-- The options and the context that a step has to bind the handler with, if it is one that may. -/
def Step.settings? : Step → Option (Options × Nat)
  | .apply options context | .bind options context => some (options, context)
  | .compile text? context => some (Options.ofText? text?, context)
  | .wrap | .reset => none

/-- The name that a declaration of one variable declares. -/
def Tree.declaredName? : Tree → Option String
  | node "VariableDeclaration" fields =>
    match fields.lookup "declarations" with
    | some (list [node "VariableDeclarator" declarator]) =>
      (declarator.lookup "id").bind identifierName?
    | _ => none
  | _ => none

/-- The name of a variable, with the context that it is read in. -/
def Tree.scopedName? : Tree → Option (String × Nat)
  | identifier name attrs =>
    match attrs.lookup "ctxt" with
    | some (leaf (.context context)) => some (name, context)
    | _ => none
  | _ => none

/-- Declares the handler by requiring `specifier` and nothing else, and brings `context` alone. -/
structure Tree.DeclaresHandler (t : Tree) (specifier : String) (context : Nat) : Prop where
  declared : t.declaredName? = some handlerName
  names : t.nodes.filterMap scopedName? = [(handlerName, 0), ("require", context)]
  strings : t.nodes.filterMap literal? = [specifier]
  contexts : t.gather ownContexts = if context = 0 then [] else [context]

theorem Tree.declaresHandler_binding (specifier : String) (context : Nat) :
    (binding specifier context).DeclaresHandler specifier context where
  declared := rfl
  names := rfl
  strings := rfl
  contexts := gather_ownContexts_binding specifier context

namespace Program

/-- How often a history wraps the program. -/
def rounds (past : List Step) : Nat := past.countP Step.wraps

/-- Whether wrapping once more, after `k` times, wraps something. -/
def wrapsAt (p : Program) (k : Nat) : Bool :=
  (wrapAll (p.items.map (after wrapNode)^[k])).wrapped

/-- The record that a history leaves. -/
def recorded (p : Program) : List Step → Bool
  | [] => false
  | .wrap :: past => p.recorded past || p.wrapsAt (rounds past)
  | .reset :: _ => false
  | .apply _ _ :: past | .bind _ _ :: past | .compile _ _ :: past => p.recorded past

/-- What a step binds after a history. Only `bind` goes by the record; the steps that wrap and bind
go by what they wrap themselves. -/
def binding? (p : Program) (past : List Step) : Step → Option Tree
  | .apply options context => bindingItem? (p.wrapsAt (rounds past)) options context
  | .bind options context => bindingItem? (p.recorded past) options context
  | .compile text? context =>
    bindingItem? (p.wrapsAt (rounds past)) (Options.ofText? text?) context
  | .wrap | .reset => none

/-- What the steps of a history bind, the newest first. -/
def bindings (p : Program) : List Step → List Tree
  | [] => []
  | a :: past => (p.binding? past a).toList ++ p.bindings past

/-- The program with each item wrapped `k` times. -/
def wrapItems (k : Nat) (p : Program) : Program :=
  { p with body := p.directives ++ p.items.map (after wrapNode)^[k] }

end Program

/-- The session that a history leaves. -/
def Session.replay (p : Program) (past : List Step) : Session :=
  ⟨(p.wrapItems (Program.rounds past)).insertAll (p.bindings past), p.recorded past⟩

namespace Program

theorem isDirective_iterate (k : Nat) (t : Tree) :
    isDirective ((after wrapNode)^[k] t) = isDirective t :=
  eq_iterate_after rewrite_wrapNode.isDirective_after k t

theorem directives_and_items_wrapItems (k : Nat) (p : Program) :
    (p.wrapItems k).directives = p.directives ∧
      (p.wrapItems k).items = p.items.map (after wrapNode)^[k] := by
  have hd : isDirective ∘ (after wrapNode)^[k] = isDirective := funext (isDirective_iterate k)
  apply directives_and_items_of_body rfl
  · exact fun _ => isDirective_of_mem_directives
  · rw [List.takeWhile_map, hd, takeWhile_items, List.map_nil]

/-- Wrapping takes the program from `k` times to `k + 1` times, its directives being code in which
there is nothing to wrap. -/
theorem wrap_wrapItems (hp : p.WellFormed) (k : Nat) :
    (p.wrapItems k).wrap.value = p.wrapItems (k + 1) := by
  have hdirectives : p.directives.map (after wrapNode) = p.directives :=
    rewrite_wrapNode.map_after_eq_self fun _ => hp.sites_directive
  have hitems : (p.items.map (after wrapNode)^[k]).map (after wrapNode) =
      p.items.map (after wrapNode)^[k + 1] := by
    rw [List.map_map, Function.iterate_succ']
  rw [wrap_eq_pass, value_pass, wrapItems, wrapItems, List.map_append, hdirectives, hitems]

theorem wrapped_wrapItems (hp : p.WellFormed) (k : Nat) :
    (p.wrapItems k).wrap.wrapped = p.wrapsAt k := by
  have hdirectives : (p.directives.any fun t => (t.traverse wrapNode).wrapped) = false :=
    rewrite_wrapNode.any_wrapped_eq_false fun _ => hp.sites_directive
  have hitems : p.wrapsAt k =
      (p.items.map (after wrapNode)^[k]).any fun t => (t.traverse wrapNode).wrapped :=
    wrapped_traverseAll wrapNode _
  rw [wrap_eq_pass, wrapped_pass, wrapItems, List.any_append, hdirectives, hitems, Bool.false_or]

theorem exists_of_binding? (h : p.binding? past a = some t) :
    ∃ options context specifier, a.settings? = some (options, context) ∧
      options.handler? = some specifier ∧ t = binding specifier context := by
  cases a with
  | apply options context | bind options context =>
    obtain ⟨specifier, hs, ht⟩ := exists_of_bindingItem? h
    exact ⟨options, context, specifier, rfl, hs, ht⟩
  | compile text? context =>
    obtain ⟨specifier, hs, ht⟩ := exists_of_bindingItem? h
    exact ⟨_, context, specifier, rfl, hs, ht⟩
  | wrap => cases h
  | reset => cases h

/-- What a history binds, one of its steps binds. -/
theorem exists_step_of_mem_bindings (h : t ∈ p.bindings past) :
    ∃ later a earlier, past = later ++ a :: earlier ∧ p.binding? earlier a = some t := by
  induction past with
  | nil => cases h
  | cons a past ih =>
    rcases List.mem_append.1 h with hnew | hold
    · exact ⟨[], a, past, rfl, Option.mem_toList.1 hnew⟩
    · obtain ⟨later, b, earlier, he, hb⟩ := ih hold
      exact ⟨a :: later, b, earlier, by rw [he, List.cons_append], hb⟩

theorem exists_of_mem_bindings (h : t ∈ p.bindings past) :
    ∃ specifier context, t = binding specifier context := by
  obtain ⟨_, _, _, _, hb⟩ := exists_step_of_mem_bindings h
  obtain ⟨_, context, specifier, _, _, ht⟩ := exists_of_binding? hb
  exact ⟨specifier, context, ht⟩

/-- What a history binds declares the handler as the step that binds it is told to. -/
theorem declaresHandler_of_mem_bindings (h : t ∈ p.bindings past) :
    ∃ later a earlier options context specifier, past = later ++ a :: earlier ∧
      p.binding? earlier a = some t ∧ a.settings? = some (options, context) ∧
      options.handler? = some specifier ∧ t.DeclaresHandler specifier context := by
  obtain ⟨later, a, earlier, he, hb⟩ := exists_step_of_mem_bindings h
  obtain ⟨options, context, specifier, ha, hs, rfl⟩ := exists_of_binding? hb
  exact ⟨later, a, earlier, options, context, specifier, he, hb, ha, hs,
    declaresHandler_binding specifier context⟩

theorem isDirective_of_mem_bindings (h : t ∈ p.bindings past) : isDirective t = false := by
  obtain ⟨specifier, context, rfl⟩ := exists_of_mem_bindings h
  exact isDirective_binding specifier context

theorem sites_of_mem_bindings (h : t ∈ p.bindings past) : t.sites = [] := by
  obtain ⟨specifier, context, rfl⟩ := exists_of_mem_bindings h
  exact sites_binding specifier context

theorem bindingItem?_eq_none {needed : Bool} {options : Options} (context : Nat)
    (h : needed = true ∧ options.handler? = none) :
    bindingItem? needed options context = none := by
  rw [bindingItem?, h.2]
  split <;> rfl

theorem bindingItem?_unset (needed : Bool) (context : Nat) :
    bindingItem? needed Options.unset context = none := by
  cases needed <;> rfl

theorem recorded_cons (p : Program) (a : Step) (past : List Step) :
    p.recorded (a :: past) = true ↔
      (a = .wrap ∧ p.wrapsAt (rounds past) = true) ∨ (a ≠ .reset ∧ p.recorded past = true) := by
  cases a <;> simp [recorded, or_comm]

/-- The record is set by a step that does nothing but wrap and wrapped something, if no reset came
after it. -/
theorem recorded_iff (p : Program) (past : List Step) :
    p.recorded past = true ↔ ∃ later earlier, past = later ++ .wrap :: earlier ∧ .reset ∉ later ∧
      p.wrapsAt (rounds earlier) = true := by
  induction past with
  | nil => simp [recorded]
  | cons a past ih =>
    rw [recorded_cons, ih]
    constructor
    · rintro (⟨rfl, hw⟩ | ⟨ha, later, earlier, rfl, hr, hw⟩)
      · exact ⟨[], past, rfl, List.not_mem_nil, hw⟩
      · exact ⟨a :: later, earlier, rfl, by simp [ha.symm, hr], hw⟩
    · rintro ⟨later, earlier, he, hr, hw⟩
      cases later with
      | nil =>
        cases he
        exact Or.inl ⟨rfl, hw⟩
      | cons b later =>
        cases he
        rw [List.mem_cons, not_or] at hr
        exact Or.inr ⟨Ne.symm hr.1, later, earlier, rfl, hr.2, hw⟩

end Program

namespace Session

open Program

theorem value_wrap_replay (hp : p.WellFormed) (past : List Step) :
    (replay p past).program.wrap.value =
      (p.wrapItems (rounds past + 1)).insertAll (p.bindings past) := by
  rw [replay, wrap_eq_pass, pass_insertAll rewrite_wrapNode.toLocalPass
    fun t => sites_of_mem_bindings, ← wrap_eq_pass, wrap_wrapItems hp]

theorem wrapped_wrap_replay (hp : p.WellFormed) (past : List Step) :
    (replay p past).program.wrap.wrapped = p.wrapsAt (rounds past) := by
  rw [replay, wrap_eq_pass, wrapped_pass_insertAll rewrite_wrapNode.toLocalPass
    fun t => sites_of_mem_bindings, ← wrap_eq_pass, wrapped_wrapItems hp]

theorem insertAll_bindings (k : Nat) (a : Step) (past : List Step) :
    ((p.wrapItems k).insertAll (p.bindings past)).insertAll (p.binding? past a).toList =
      (p.wrapItems k).insertAll (p.bindings (a :: past)) :=
  insertAll_insertAll (fun _ => isDirective_of_mem_bindings) _

/-- A step that wraps, and binds by what it wraps, keeps the closed form. -/
theorem replay_cons_of_wraps (ha : a.wraps = true) :
    replay p (a :: past) = ⟨((p.wrapItems (rounds past + 1)).insertAll (p.bindings past)).insertAll
      (p.binding? past a).toList, p.recorded (a :: past)⟩ := by
  rw [replay, rounds, List.countP_cons_of_pos ha, insertAll_bindings]
  rfl

theorem replay_cons_of_not_wraps (ha : a.wraps = false) :
    replay p (a :: past) = ⟨(replay p past).program.insertAll (p.binding? past a).toList,
      p.recorded (a :: past)⟩ := by
  rw [replay, replay, rounds, List.countP_cons_of_neg (by simp [ha]), insertAll_bindings]
  rfl

/-- Each step keeps the closed form. -/
theorem step_replay (hp : p.WellFormed) (past : List Step) (a : Step) :
    ((replay p past).step a).value.1 = replay p (a :: past) := by
  have hvalue := value_wrap_replay hp past
  have hwrapped := wrapped_wrap_replay hp past
  cases a with
  | apply options context =>
    rw [step_apply, hvalue, hwrapped, replay_cons_of_wraps rfl]
    rfl
  | wrap =>
    rw [step_wrap, hvalue, hwrapped, replay_cons_of_wraps rfl, binding?, Option.toList_none,
      insertAll_nil]
    rfl
  | bind options context =>
    rw [step_bind, replay_cons_of_not_wraps rfl]
    rfl
  | compile text? context =>
    rw [step_compile, hvalue, hwrapped, replay_cons_of_wraps rfl]
    rfl
  | reset =>
    rw [step_reset, replay_cons_of_not_wraps rfl, binding?, Option.toList_none, insertAll_nil]
    rfl

theorem afterRun_eq_replay (hp : p.WellFormed) (steps : List Step) :
    (start p).afterRun steps = replay p steps.reverse := by
  induction steps using List.reverseRecOn with
  | nil =>
    have hitems : p.wrapItems 0 = p := by
      rw [wrapItems, Function.iterate_zero, List.map_id, directives_append_items]
    change start p = ⟨(p.wrapItems 0).insertAll [], false⟩
    rw [hitems, insertAll_nil]
    rfl
  | append_singleton steps a ih =>
    rw [afterRun_concat, ih, step_replay hp, List.reverse_append]
    rfl

/-- A step that fails binds nothing. -/
theorem binding?_of_fails (hp : p.WellFormed)
    (h : ((replay p past).step a).value.2.fails = true) : p.binding? past a = none := by
  have hwrapped := wrapped_wrap_replay hp past
  cases a with
  | apply options context =>
    rw [step_apply, hwrapped] at h
    by_cases hn : p.wrapsAt (rounds past) = true ∧ options.handler? = none
    · exact bindingItem?_eq_none context hn
    · simp [if_neg hn, Reply.fails] at h
  | wrap => rfl
  | bind options context =>
    rw [step_bind] at h
    by_cases hn : p.recorded past = true ∧ options.handler? = none
    · exact bindingItem?_eq_none context hn
    · simp [if_neg (show ¬ ((replay p past).wrapped = true ∧ _) from hn), Reply.fails] at h
  | compile text? context =>
    rw [step_compile, hwrapped] at h
    by_cases hn : p.wrapsAt (rounds past) = true ∧ (Options.ofText? text?).handler? = none
    · exact bindingItem?_eq_none context hn
    · simp [if_neg hn, Reply.fails] at h
  | reset => rfl

/-- After any run the directives stand in front as they were, then come the bindings, the newest
first, then the items, each wrapped once for every step that wraps. -/
theorem run_closed_form (hp : p.WellFormed) (steps : List Step) :
    ((start p).afterRun steps).program =
      { p with
        body := p.directives ++ p.bindings steps.reverse ++
          p.items.map (after wrapNode)^[rounds steps] } ∧
    ((start p).afterRun steps).program.directives = p.directives ∧
    ((start p).afterRun steps).wrapped = p.recorded steps.reverse ∧
    ((start p).afterRun steps).program.wrap.wrapped = p.wrapsAt (rounds steps) ∧
    (∀ a, (((start p).afterRun steps).step a).value.2.fails = true →
      p.bindings (a :: steps.reverse) = p.bindings steps.reverse) ∧
    (∀ t ∈ p.bindings steps.reverse, ∃ later a earlier options context specifier,
      steps.reverse = later ++ a :: earlier ∧ p.binding? earlier a = some t ∧
      a.settings? = some (options, context) ∧ options.handler? = some specifier ∧
      t.DeclaresHandler specifier context) ∧
    (∀ past context, p.binding? past (.compile none context) = none) ∧
    (∀ past, p.recorded past = true ↔ ∃ later earlier, past = later ++ .wrap :: earlier ∧
      .reset ∉ later ∧ p.wrapsAt (rounds earlier) = true) := by
  have hrun := afterRun_eq_replay hp steps
  have hrounds : rounds steps.reverse = rounds steps := List.countP_reverse
  obtain ⟨hdirectives, hitems⟩ := directives_and_items_wrapItems (rounds steps) p
  have hnot : ∀ t ∈ p.bindings steps.reverse, isDirective t = false :=
    fun _ => isDirective_of_mem_bindings
  rw [hrun]
  refine ⟨?_, ?_, rfl, ?_, ?_, fun _ => declaresHandler_of_mem_bindings, ?_, p.recorded_iff⟩
  · rw [replay, hrounds, insertAll, hdirectives, hitems]
    rfl
  · rw [replay, hrounds, directives_insertAll hnot, hdirectives]
  · rw [wrapped_wrap_replay hp, hrounds]
  · intro a hfails
    rw [bindings, binding?_of_fails hp hfails]
    rfl
  · intro past context
    exact bindingItem?_unset _ context

theorem run_closed_form_sample : sample.WellFormed ∧
    ((start sample).afterRun [.apply ⟨some "./first"⟩ 0, .wrap, .bind ⟨none⟩ 0,
      .bind ⟨some "./second"⟩ 1, .compile none 1, .reset, .bind ⟨some "./third"⟩ 1]).program =
      { sample with
        body := sample.directives ++ [binding "./second" 1, binding "./first" 0] ++
          sample.items.map (after wrapNode)^[3] } := by
  have hp : sample.WellFormed :=
    List.all_eq_true.1 (by decide : sample.nodes.all isWellFormed = true)
  have hfirst : sample.wrapsAt 0 = true := by decide
  have hsecond : sample.wrapsAt 1 = true := by decide +kernel
  refine ⟨hp, (run_closed_form hp _).1.trans ?_⟩
  simp [bindings, binding?, recorded, bindingItem?, rounds, Step.wraps, hfirst, hsecond,
    Options.handler?, Option.filter, Options.ofText?, Options.unset, List.countP_cons]

end Session

end RenderGuard
