import RenderGuard.Proofs.Programs

/-! The walk from the top down, which goes on in what each step made of its node. -/
namespace RenderGuard

open Traced
open scoped List

namespace Tree

variable {f : Tree → Traced Tree} {t : Tree} {r r' : Traced Tree}

/-- The walk from the top down comes to an end at a tree, with this result; `k` is what it makes of
the children after the step. -/
inductive TopDown (f : Tree → Traced Tree) : Tree → Traced Tree → Prop where
  | node {t : Tree} (k : Tree → Traced Tree)
      (below : ∀ c ∈ (f t).value.children, TopDown f c (k c)) :
      TopDown f t
        ⟨(f t).value.mapChildren fun c => (k c).value,
          (f t).events ++ (f t).value.children.flatMap fun c => (k c).events,
          (f t).wrapped || (f t).value.children.any fun c => (k c).wrapped⟩

/-- The walk has one result at most. -/
theorem TopDown.unique (h : TopDown f t r) (h' : TopDown f t r') : r = r' := by
  induction h generalizing r' with
  | @node t k _ ih =>
    cases h' with
    | node k' below' =>
      have hk : ∀ c ∈ (f t).value.children, k c = k' c := fun c hc => ih c hc (below' c hc)
      ext1
      · exact mapChildren_congr fun c hc => by rw [hk c hc]
      · exact congrArg ((f t).events ++ ·) (List.flatMap_congr fun c hc => by rw [hk c hc])
      · exact congrArg ((f t).wrapped || ·) (any_congr_of_mem fun c hc => by rw [hk c hc])

/-- What the walk has to come to: the tree of the walk that goes children first, and what the step
says of the classes and arrows at the start. -/
structure Agrees (f : Tree → Traced Tree) (t : Tree) (r : Traced Tree) : Prop where
  value : r.value = t.after f
  events : r.events ~ t.sites.flatMap fun n => (f n).events
  wrapped : r.wrapped = t.sites.any fun n => (f n).wrapped

theorem Rewrite.agrees_traverse (h : Rewrite f) (t : Tree) : Agrees f t (t.traverse f) where
  value := rfl
  events := by
    rw [sites, flatMap_filter_isSite fun n hn => by rw [h.elsewhere hn, events_pure]]
    exact h.events_perm t
  wrapped := by
    rw [sites, any_filter_isSite fun n hn => by rw [h.elsewhere hn, wrapped_pure]]
    exact h.wrapped_eq t

/-- After the step the classes and arrows below are still those of the tree, so the results of the
children add up. -/
theorem Rewrite.agrees_node (h : Rewrite f) {k : Tree → Traced Tree}
    (hk : ∀ c ∈ (f t).value.children, Agrees f c (k c)) :
    Agrees f t
      ⟨(f t).value.mapChildren fun c => (k c).value,
        (f t).events ++ (f t).value.children.flatMap fun c => (k c).events,
        (f t).wrapped || (f t).value.children.any fun c => (k c).wrapped⟩ where
  value := by
    rw [mapChildren_congr fun c hc => (hk c hc).value, after_eq, h.commutes h.toLocalPass,
      value_map]
  events := by
    have hbelow : ((f t).value.children.flatMap fun c => (k c).events) ~
        t.sitesBelow.flatMap fun n => (f n).events := by
      rw [← h.sitesBelow_value t, sitesBelow, List.flatMap_assoc]
      exact List.Perm.flatMap_left _ fun c hc => (hk c hc).events
    rw [sites_eq, List.flatMap_append]
    refine List.Perm.append (List.Perm.of_eq ?_) hbelow
    cases hs : t.isSite with
    | true => simp
    | false => simp [h.elsewhere hs]
  wrapped := by
    have hbelow : ((f t).value.children.any fun c => (k c).wrapped) =
        t.sitesBelow.any fun n => (f n).wrapped := by
      rw [← h.sitesBelow_value t, sitesBelow, List.any_flatMap]
      exact any_congr_of_mem fun c hc => (hk c hc).wrapped
    rw [sites_eq, List.any_append, hbelow]
    cases hs : t.isSite with
    | true => simp
    | false => simp [h.elsewhere hs]

theorem Rewrite.exists_topDown_of_children (h : Rewrite f)
    (hc : ∀ c ∈ (f t).value.children, ∃ r, TopDown f c r ∧ Agrees f c r) :
    ∃ r, TopDown f t r ∧ Agrees f t r := by
  have hall : ∀ c, ∃ r, c ∈ (f t).value.children → TopDown f c r ∧ Agrees f c r := by
    intro c
    by_cases hm : c ∈ (f t).value.children
    · obtain ⟨r, hr⟩ := hc c hm
      exact ⟨r, fun _ => hr⟩
    · exact ⟨pure c, fun hm' => absurd hm' hm⟩
  choose k hk using hall
  exact ⟨_, .node k fun c hm => (hk c hm).1, h.agrees_node fun c hm => (hk c hm).2⟩

theorem length_sites_le {c : Tree} {ts : List Tree} (hc : c ∈ ts) :
    c.sites.length ≤ (ts.flatMap sites).length := by
  obtain ⟨before, rest, rfl⟩ := List.append_of_mem hc
  rw [List.flatMap_append, List.flatMap_cons, List.length_append, List.length_append]
  omega

/-- The walk comes to an end: at a class or an arrow there are fewer of them below, and elsewhere
the children are smaller. -/
theorem Rewrite.exists_topDown (h : Rewrite f) (t : Tree) :
    ∃ r, TopDown f t r ∧ Agrees f t r := by
  induction hn : t.sites.length using Nat.strongRecOn generalizing t with
  | ind n ihn =>
    induction t using inductionOnChildren with
    | step t ih =>
      apply h.exists_topDown_of_children
      intro c hc
      cases hs : t.isSite with
      | true =>
        have hbelow : c.sites.length ≤ t.sitesBelow.length := by
          rw [← h.sitesBelow_value t]
          exact length_sites_le hc
        have hsites : t.sites.length = t.sitesBelow.length + 1 := by simp [sites_eq t, hs]
        exact ihn c.sites.length (by omega) c rfl
      | false =>
        rw [h.elsewhere hs, value_pure] at hc
        have hbelow : c.sites.length ≤ t.sites.length := by
          rw [sites_eq t, hs]
          exact length_sites_le hc
        rcases Nat.lt_or_eq_of_le hbelow with hlt | heq
        · exact ihn c.sites.length (by omega) c rfl
        · exact ih c hc (heq.trans hn)

end Tree

namespace Program

open RenderGuard.Tree

variable {p : Program} {r r' : Traced Program}

/-- The walk from the top down comes to an end at a tree, with this result; `k` is what it makes of
the children after the step. -/
def TopDown (p : Program) (r : Traced Program) : Prop :=
  ∃ k : Tree → Traced Tree, (∀ t ∈ p.body, Tree.TopDown wrapNode t (k t)) ∧
    r = ⟨{ p with body := p.body.map fun t => (k t).value },
      p.body.flatMap fun t => (k t).events, p.body.any fun t => (k t).wrapped⟩

theorem TopDown.unique (h : p.TopDown r) (h' : p.TopDown r') : r = r' := by
  obtain ⟨k, hk, rfl⟩ := h
  obtain ⟨k', hk', rfl⟩ := h'
  have he : ∀ t ∈ p.body, k t = k' t := fun t ht => (hk t ht).unique (hk' t ht)
  ext1
  · have hvalue := List.map_congr_left fun t ht => congrArg Traced.value (he t ht)
    exact congrArg (fun body => { p with body }) hvalue
  · exact List.flatMap_congr fun t ht => congrArg Traced.events (he t ht)
  · exact any_congr_of_mem fun t ht => congrArg Traced.wrapped (he t ht)

/-- Wrapping from the top down comes to an end, with the program that wrapping children first makes,
the same events up to their order and the same record. -/
theorem order_of_the_walk_does_not_matter (p : Program) :
    ∃ r, p.TopDown r ∧ (∀ r', p.TopDown r' → r' = r) ∧
      r.value = p.wrap.value ∧ r.events.Perm p.wrap.events ∧ r.wrapped = p.wrap.wrapped := by
  choose k hk using rewrite_wrapNode.exists_topDown
  have hrun : p.TopDown _ := ⟨k, fun t _ => (hk t).1, rfl⟩
  refine ⟨_, hrun, fun r' h' => h'.unique hrun, ?_, ?_, ?_⟩
  · rw [wrap_eq_pass, value_pass]
    simp only [(hk _).2.value]
  · have hevents : p.wrap.events = p.body.flatMap fun t => (t.traverse wrapNode).events := by
      simp [wrap_eq_pass, pass, events_traverseAll]
    rw [hevents]
    exact List.Perm.flatMap_left _ fun t _ =>
      (hk t).2.events.trans (rewrite_wrapNode.agrees_traverse t).events.symm
  · rw [wrap_eq_pass, wrapped_pass]
    simp only [(hk _).2.wrapped, (rewrite_wrapNode.agrees_traverse _).wrapped]

/-- In the sample an arrow, a class in it and an arrow in that are wrapped, in either order. -/
theorem order_of_the_walk_does_not_matter_sample :
    sample.wrap.wrapped = true ∧ ∃ r, sample.TopDown r ∧
      (∀ r', sample.TopDown r' → r'.value = sample.wrap.value ∧ r'.wrapped = true) ∧
      r.events.length = 3 := by
  obtain ⟨r, hr, hone, hvalue, hevents, hwrapped⟩ := order_of_the_walk_does_not_matter sample
  refine ⟨rfl, r, hr, fun r' h' => ?_, hevents.length_eq.trans rfl⟩
  rw [hone r' h']
  exact ⟨hvalue, hwrapped⟩

end Program

end RenderGuard
