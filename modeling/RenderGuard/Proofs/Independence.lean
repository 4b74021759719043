import RenderGuard.Proofs.Programs

/-! Wrapping classes and wrapping arrows are independent of each other. -/
namespace RenderGuard

open Traced
open scoped List

namespace Tree

/-- A node is a class or an arrow and never both, so that one of the two steps does nothing. -/
theorem value_wrapArrow_wrapClass (t : Tree) :
    (wrapArrow t >>= wrapClass).value = (wrapNode t).value := by
  cases t with
  | classDef form name superClass members attrs =>
    rw [wrapNode_classDef]
    rfl
  | arrow params body attrs =>
    obtain ⟨body', he⟩ := localPass_wrapArrow.atArrow params body attrs
    rw [wrapNode_arrow, value_bind, he]
    rfl
  | _ => rfl

theorem events_wrapNode (t : Tree) :
    (wrapNode t).events = (wrapClass t).events ++ (wrapArrow t).events := by
  cases t with
  | classDef form name superClass members attrs =>
    rw [wrapNode_classDef]
    exact (List.append_nil _).symm
  | _ => rfl

theorem wrapped_wrapNode (t : Tree) :
    (wrapNode t).wrapped = ((wrapClass t).wrapped || (wrapArrow t).wrapped) := by
  cases t with
  | classDef form name superClass members attrs =>
    rw [wrapNode_classDef]
    exact (Bool.or_false _).symm
  | _ => rfl

end Tree

namespace Program

open RenderGuard.Tree

/-- Classes may be wrapped before arrows, after them or along with them: the program is the same,
and so are the reports up to their order. -/
theorem class_and_arrow_wrapping_commute (p : Program) :
    ((p.pass wrapClass).value.pass wrapArrow).value = p.wrap.value ∧
    ((p.pass wrapArrow).value.pass wrapClass).value = p.wrap.value ∧
    p.wrap.events.Perm ((p.pass wrapClass).events ++ (p.pass wrapArrow).events) ∧
    p.wrap.wrapped = ((p.pass wrapClass).wrapped || (p.pass wrapArrow).wrapped) := by
  rw [wrap_eq_pass]
  refine ⟨?_, ?_, ?_, ?_⟩
  · exact pass_pass rewrite_wrapClass localPass_wrapArrow p
  · rw [pass_pass rewrite_wrapArrow localPass_wrapClass, value_pass, value_pass]
    have ht : ∀ t : Tree, (t.after fun u => wrapArrow u >>= wrapClass) = t.after wrapNode :=
      after_congr value_wrapArrow_wrapClass
    simp only [funext ht]
  · calc (p.pass wrapNode).events
      _ ~ p.nodes.flatMap fun n => (wrapNode n).events := events_pass_perm rewrite_wrapNode p
      _ = p.nodes.flatMap fun n => (wrapClass n).events ++ (wrapArrow n).events := by
        simp only [events_wrapNode]
      _ ~ (p.nodes.flatMap fun n => (wrapClass n).events) ++
          p.nodes.flatMap fun n => (wrapArrow n).events := (List.flatMap_append_perm _ _ _).symm
      _ ~ (p.pass wrapClass).events ++ (p.pass wrapArrow).events :=
        ((events_pass_perm rewrite_wrapClass p).append
          (events_pass_perm rewrite_wrapArrow p)).symm
  · rw [wrapped_pass_eq rewrite_wrapNode, wrapped_pass_eq rewrite_wrapClass,
      wrapped_pass_eq rewrite_wrapArrow, Bool.eq_iff_iff]
    simp only [wrapped_wrapNode, Bool.or_eq_true, List.any_eq_true]
    constructor
    · rintro ⟨n, hn, hc | ha⟩
      · exact Or.inl ⟨n, hn, hc⟩
      · exact Or.inr ⟨n, hn, ha⟩
    · rintro (⟨n, hn, hc⟩ | ⟨n, hn, ha⟩)
      · exact ⟨n, hn, Or.inl hc⟩
      · exact ⟨n, hn, Or.inr ha⟩

end Program

end RenderGuard
