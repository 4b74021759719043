import RenderGuard.Proofs.Binding
import RenderGuard.Proofs.Coverage
import RenderGuard.Proofs.Independence

/-! Wrapping again: a class is only reported from then on, an arrow is wrapped every time. -/
namespace RenderGuard

open Component Fragment Traced
open scoped List

namespace Tree

/-- A class component with something to wrap or with the sign that it is wrapped. -/
def isRenderClass : Tree → Bool
  | classDef _ _ superClass members _ =>
    isBase superClass && (members.any (isNamed renderName) || members.any isMarker)
  | _ => false

/-- The name a class component goes by in events. -/
def componentName? : Tree → Option String
  | classDef _ name _ _ _ => identifierName? name
  | _ => none

/-- What wrapping says of a class that it finds wrapped. -/
def reports (t : Tree) : List Event :=
  if t.isRenderClass then [.alreadyWrapped t.componentName?] else []

theorem reports_of_isSite_eq_false {t : Tree} (h : t.isSite = false) : t.reports = [] := by
  cases t <;> simp_all [isSite, reports, isRenderClass]

theorem wrapClass_of_isMarker {superClass : Tree} {members : List Tree} (form : ClassForm)
    (name : Tree) (attrs : List (String × Tree)) (hb : isBase superClass = true)
    (hm : members.any isMarker = true) :
    wrapClass (classDef form name superClass members attrs) =
      ⟨classDef form name superClass members attrs,
        [.alreadyWrapped (identifierName? name)], false⟩ := by
  rcases wrapClass_cases form name superClass members attrs with
    ⟨_, _, he⟩ | ⟨_, hn, _⟩ | ⟨hn, _⟩
  · exact he
  · simp [hm] at hn
  · simp [hb, hm] at hn

/-- Whatever a step made of a class, wrapping it once more is at most a report. -/
theorem wrapClass_wrapNode (t : Tree) :
    wrapClass (wrapNode t).value = ⟨(wrapNode t).value, t.reports, false⟩ := by
  cases t with
  | classDef form name superClass members attrs =>
    rw [wrapNode_classDef]
    rcases wrapClass_cases form name superClass members attrs with
      ⟨hb, hm, he⟩ | ⟨hb, hm, i, hi, he⟩ | ⟨hn, he⟩
    · simp [he, reports, isRenderClass, componentName?, hb, hm]
    · have hr : members.any (isNamed renderName) = true := any_of_lastIndex?_eq_some hi
      rw [he, wrapClass_of_isMarker form name attrs hb (any_isMarker_guardMembers hi)]
      simp [reports, isRenderClass, componentName?, hb, hr]
    · simp only [he, value_pure, reports, isRenderClass, hn]
      rfl
  | arrow params body attrs =>
    obtain ⟨body', he⟩ := rewrite_wrapNode.atArrow params body attrs
    rw [he]
    rfl
  | _ => rfl

theorem reports_mapChildren (t : Tree) : (t.mapChildren (after wrapNode)).reports = t.reports := by
  have h : LocalPass wrapNode := rewrite_wrapNode.toLocalPass
  cases t with
  | classDef form name superClass members attrs =>
    simp only [mapChildren, reports, isRenderClass, componentName?, h.isBase_after,
      h.identifierName?_after, List.any_map, Function.comp_def, h.isNamed_after, h.isMarker_after]
    rfl
  | _ => rfl

theorem wrapClass_after (t : Tree) :
    wrapClass (t.after wrapNode) = ⟨t.after wrapNode, t.reports, false⟩ := by
  rw [after_eq, wrapClass_wrapNode, reports_mapChildren]

theorem reports_wrapNode (t : Tree) : (wrapNode t).value.reports = t.reports := by
  cases t with
  | classDef form name superClass members attrs =>
    rw [wrapNode_classDef]
    rcases wrapClass_cases form name superClass members attrs with
      ⟨_, _, he⟩ | ⟨hb, hm, i, hi, he⟩ | ⟨_, he⟩
    · rw [he]
    · have hr : members.any (isNamed renderName) = true := any_of_lastIndex?_eq_some hi
      simp [he, reports, isRenderClass, componentName?, hb, hr, any_isMarker_guardMembers hi]
    · rw [he, value_pure]
  | arrow params body attrs =>
    obtain ⟨body', he⟩ := rewrite_wrapNode.atArrow params body attrs
    rw [he]
    rfl
  | _ => rfl

theorem reports_after (t : Tree) : (t.after wrapNode).reports = t.reports := by
  rw [after_eq, reports_wrapNode, reports_mapChildren]

/-- From the second time on wrapping a class is at most a report, however often. -/
theorem wrapClass_iterate (k : Nat) (t : Tree) :
    wrapClass ((after wrapNode)^[k + 1] t) = ⟨(after wrapNode)^[k + 1] t, t.reports, false⟩ := by
  rw [Function.iterate_succ_apply', wrapClass_after, eq_iterate_after reports_after]

theorem isPropsArrow_iterate (k : Nat) (t : Tree) :
    ((after wrapNode)^[k] t).isPropsArrow = t.isPropsArrow :=
  eq_iterate_after rewrite_wrapNode.isPropsArrow_after k t

theorem events_wrapNode_iterate (k : Nat) (t : Tree) :
    (wrapNode ((after wrapNode)^[k + 1] t)).events =
      t.reports ++ if t.isPropsArrow then [.wrappedArrow] else [] := by
  rw [events_wrapNode, wrapClass_iterate, events_wrapArrow, isPropsArrow_iterate]

theorem wrapped_wrapNode_iterate (k : Nat) (t : Tree) :
    (wrapNode ((after wrapNode)^[k + 1] t)).wrapped = t.isPropsArrow := by
  rw [wrapped_wrapNode, wrapClass_iterate, wrapped_wrapArrow, isPropsArrow_iterate, Bool.false_or]

end Tree

namespace Program

open RenderGuard.Tree

variable {p : Program}

/-- The program wrapped `k` times. -/
def wrapTimes (k : Nat) (p : Program) : Program := (fun q => q.wrap.value)^[k] p

theorem wrapTimes_succ (k : Nat) (p : Program) :
    p.wrapTimes (k + 1) = (p.wrapTimes k).wrap.value :=
  Function.iterate_succ_apply' _ k p

theorem sites_wrapTimes (k : Nat) (p : Program) :
    (p.wrapTimes k).sites = p.sites.map (after wrapNode)^[k] := by
  induction k with
  | zero => exact (List.map_id p.sites).symm
  | succ k ih =>
    rw [wrapTimes_succ, wrap_eq_pass, sites_pass rewrite_wrapNode, ih, List.map_map,
      Function.iterate_succ']

/-- No class is wrapped in a wrapped program. -/
theorem pass_wrapClass_wrap (p : Program) :
    (p.wrap.value.pass wrapClass).value = p.wrap.value ∧
      (p.wrap.value.pass wrapClass).wrapped = false := by
  constructor
  · have hstep : ∀ t : Tree, (wrapNode t >>= wrapClass).value = (wrapNode t).value := by
      intro t
      rw [value_bind, wrapClass_wrapNode]
    rw [wrap_eq_pass, pass_pass rewrite_wrapNode localPass_wrapClass, value_pass, value_pass,
      funext (after_congr hstep)]
  · rw [wrapped_pass_eq rewrite_wrapClass, List.any_eq_false]
    intro t ht
    cases hs : t.isSite with
    | true =>
      obtain ⟨s, _, rfl⟩ := exists_of_mem_nodes_pass rewrite_wrapNode ht hs
      simp [wrapClass_after]
    | false => simp [localPass_wrapClass.elsewhere hs]

theorem wrapped_wrap_wrapTimes (k : Nat) (p : Program) :
    (p.wrapTimes (k + 1)).wrap.wrapped = p.nodes.any isPropsArrow := by
  rw [wrapped_wrap_eq, sites_wrapTimes, List.any_map,
    any_nodes_eq fun _ => isSite_of_isPropsArrow]
  exact congrArg p.sites.any (funext (wrapped_wrapNode_iterate k))

theorem events_wrap_wrapTimes_perm (k : Nat) (p : Program) :
    (p.wrapTimes (k + 1)).wrap.events ~
      (p.nodes.filter isRenderClass).map (fun t => .alreadyWrapped t.componentName?) ++
        (p.nodes.filter isPropsArrow).map fun _ => .wrappedArrow := by
  have hsilent : ∀ t : Tree, t.isSite = false → (wrapNode t).events = [] := by
    intro t ht
    rw [rewrite_wrapNode.elsewhere ht, events_pure]
  have hnone : ∀ t : Tree, t.isSite = false →
      (t.reports ++ if t.isPropsArrow then [Event.wrappedArrow] else []) = [] := by
    intro t ht
    have ha : t.isPropsArrow = false := by
      cases t <;> simp_all [isSite, isPropsArrow]
    rw [reports_of_isSite_eq_false ht, ha]
    rfl
  calc (p.wrapTimes (k + 1)).wrap.events
    _ ~ (p.wrapTimes (k + 1)).nodes.flatMap fun n => (wrapNode n).events :=
      events_pass_perm rewrite_wrapNode _
    _ = (p.wrapTimes (k + 1)).sites.flatMap fun n => (wrapNode n).events :=
      flatMap_nodes_eq hsilent _
    _ = p.sites.flatMap fun t =>
        t.reports ++ if t.isPropsArrow then [Event.wrappedArrow] else [] := by
      simp only [sites_wrapTimes, List.flatMap_map, events_wrapNode_iterate]
    _ = p.nodes.flatMap fun t =>
        t.reports ++ if t.isPropsArrow then [Event.wrappedArrow] else [] :=
      (flatMap_nodes_eq hnone p).symm
    _ ~ (p.nodes.flatMap reports) ++
        p.nodes.flatMap fun t => if t.isPropsArrow then [Event.wrappedArrow] else [] :=
      (List.flatMap_append_perm _ _ _).symm
    _ = _ := congrArg₂ (· ++ ·) (flatMap_ite_singleton _ _ _) (flatMap_ite_singleton _ _ _)

/-- What the first run left has nothing to wrap any more, if there were no arrow components. -/
theorem wrapped_wrap_apply (ha : p.nodes.any isPropsArrow = false) (options : Options)
    (context : Nat) : (p.apply options context).value.program.wrap.wrapped = false := by
  have hwrapped : p.wrap.value.wrap.wrapped = false := (wrapped_wrap_wrapTimes 0 p).trans ha
  rw [(apply_cases p options context).1, wrap_eq_pass,
    wrapped_pass_insertAll rewrite_wrapNode.toLocalPass fun _ => sites_of_mem_bindingItem?,
    ← wrap_eq_pass, hwrapped]

/-- Wrapping a wrapped program again wraps its arrows and only reports its classes. Without arrow
components a second run changes nothing and needs no handler. -/
theorem classes_once_arrows_every_time (p : Program) :
    (∀ k, ((p.wrapTimes (k + 1)).pass wrapClass).value = p.wrapTimes (k + 1) ∧
      ((p.wrapTimes (k + 1)).pass wrapClass).wrapped = false ∧
      (p.wrapTimes (k + 1)).wrap.value = ((p.wrapTimes (k + 1)).pass wrapArrow).value ∧
      (p.wrapTimes (k + 1)).wrap.wrapped = p.nodes.any isPropsArrow ∧
      (p.wrapTimes (k + 1)).wrap.events.Perm
        ((p.nodes.filter isRenderClass).map (fun t => .alreadyWrapped t.componentName?) ++
          (p.nodes.filter isPropsArrow).map fun _ => .wrappedArrow)) ∧
    (p.nodes.any isPropsArrow = false → ∀ options context wrapped,
      (p.apply options context).value.result = .ok wrapped →
      (wrapped = true → ∃ specifier, options.handler? = some specifier ∧
        (p.apply options context).value.program =
          p.wrap.value.insert (binding specifier context)) ∧
      ∀ options' context', ((p.apply options context).value.program.apply options' context').value =
        ⟨(p.apply options context).value.program, .ok false⟩) := by
  constructor
  · intro k
    obtain ⟨hvalue, hwrapped⟩ := pass_wrapClass_wrap (p.wrapTimes k)
    rw [← wrapTimes_succ] at hvalue hwrapped
    refine ⟨hvalue, hwrapped, ?_, wrapped_wrap_wrapTimes k p, events_wrap_wrapTimes_perm k p⟩
    calc (p.wrapTimes (k + 1)).wrap.value
      _ = (((p.wrapTimes (k + 1)).pass wrapClass).value.pass wrapArrow).value :=
        (pass_pass rewrite_wrapClass localPass_wrapArrow _).symm
      _ = ((p.wrapTimes (k + 1)).pass wrapArrow).value := by rw [hvalue]
  · intro ha options context wrapped hok
    refine ⟨?_, fun options' context' =>
      apply_of_wrapped_eq_false (wrapped_wrap_apply ha options context) options' context'⟩
    rintro rfl
    obtain ⟨hprogram, hresult⟩ := apply_cases p options context
    rw [hresult] at hok
    split at hok
    · cases hok
    · next hn =>
      have hw : p.wrap.wrapped = true := by simpa using hok
      cases hs : options.handler? with
      | none => exact absurd ⟨hw, hs⟩ hn
      | some specifier =>
        refine ⟨specifier, rfl, ?_⟩
        rw [hprogram, hw, bindingItem?, if_pos rfl, hs, insert_eq_insertAll]
        rfl

theorem classes_once_arrows_every_time_sample :
    classSample.nodes.any isPropsArrow = false ∧
    (classSample.apply ⟨some "./handler"⟩ 0).value.result = .ok true ∧
    ((classSample.apply ⟨some "./handler"⟩ 0).value.program.apply ⟨none⟩ 0).value =
      ⟨(classSample.apply ⟨some "./handler"⟩ 0).value.program, .ok false⟩ := by
  have ha : classSample.nodes.any isPropsArrow = false := by decide
  have hok : (classSample.apply ⟨some "./handler"⟩ 0).value.result = .ok true := rfl
  exact ⟨ha, hok, ((classes_once_arrows_every_time classSample).2 ha _ _ _ hok).2 _ _⟩

end Program

end RenderGuard
