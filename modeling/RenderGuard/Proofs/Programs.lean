import RenderGuard.Program
import RenderGuard.Proofs.Wrapping

/-! Walks over whole programs, and the nodes of a program. -/
namespace RenderGuard.Program

open RenderGuard.Tree Traced

variable {f g : Tree → Traced Tree} {p : Program}

/-- The program with a walk over each item, directives included. -/
def pass (f : Tree → Traced Tree) (p : Program) : Traced Program := do
  return { p with body := ← traverseAll f p.body }

theorem wrap_eq_pass (p : Program) : p.wrap = p.pass wrapNode := rfl

/-- All nodes of all items. -/
def nodes (p : Program) : List Tree := p.body.flatMap Tree.nodes

/-- All classes and arrows of all items. -/
def sites (p : Program) : List Tree := p.body.flatMap Tree.sites

theorem sites_eq_filter (p : Program) : p.sites = p.nodes.filter isSite := by
  rw [sites, nodes, List.filter_flatMap]
  rfl

theorem mem_sites {t : Tree} : t ∈ p.sites ↔ t ∈ p.nodes ∧ t.isSite = true := by
  rw [sites_eq_filter, List.mem_filter]

/-- What holds of classes and arrows only is looked for among these. -/
theorem any_nodes_eq {read : Tree → Bool} (hsite : ∀ t, read t = true → t.isSite = true)
    (p : Program) : p.nodes.any read = p.sites.any read := by
  rw [sites_eq_filter, any_filter_isSite]
  intro t hs
  by_contra hr
  simp [hsite t (by simpa using hr)] at hs

theorem countP_nodes_eq {read : Tree → Bool} (hsite : ∀ t, read t = true → t.isSite = true)
    (p : Program) : p.nodes.countP read = p.sites.countP read := by
  rw [sites_eq_filter, List.countP_filter]
  apply List.countP_congr
  intro t _
  constructor
  · intro hr
    simp [hr, hsite t hr]
  · intro hr
    exact (Bool.and_eq_true _ _).mp hr |>.1

theorem flatMap_nodes_eq {α : Type} {read : Tree → List α}
    (hsite : ∀ t, t.isSite = false → read t = []) (p : Program) :
    p.nodes.flatMap read = p.sites.flatMap read := by
  rw [sites_eq_filter, flatMap_filter_isSite hsite]

theorem value_pass (f : Tree → Traced Tree) (p : Program) :
    (p.pass f).value = { p with body := p.body.map (after f) } := by
  simp [pass, value_traverseAll]

theorem wrapped_pass (f : Tree → Traced Tree) (p : Program) :
    (p.pass f).wrapped = p.body.any fun t => (t.traverse f).wrapped := by
  simp [pass, wrapped_traverseAll]

theorem pass_pass (hf : Rewrite f) (hg : LocalPass g) (p : Program) :
    ((p.pass f).value.pass g).value = (p.pass fun t => f t >>= g).value := by
  simp [value_pass, hf.after_after hg]

theorem sites_pass (h : Rewrite f) (p : Program) :
    (p.pass f).value.sites = p.sites.map (after f) := by
  simp only [value_pass, sites, List.flatMap_map, List.map_flatMap, h.sites_after]

theorem exists_of_mem_nodes_pass {t : Tree} (h : Rewrite f) (ht : t ∈ (p.pass f).value.nodes)
    (hs : t.isSite = true) : ∃ s ∈ p.sites, s.after f = t := by
  have hm : t ∈ (p.pass f).value.sites := mem_sites.2 ⟨ht, hs⟩
  rw [sites_pass h] at hm
  exact List.mem_map.1 hm

/-- A kind of class or arrow that a rewrite can neither make nor take away occurs as often after it
as before. -/
theorem countP_nodes_pass (h : Rewrite f) {read : Tree → Bool}
    (hsite : ∀ t, read t = true → t.isSite = true) (hread : ∀ t, read (t.after f) = read t)
    (p : Program) : (p.pass f).value.nodes.countP read = p.nodes.countP read := by
  calc (p.pass f).value.nodes.countP read
    _ = (p.pass f).value.sites.countP read := countP_nodes_eq hsite _
    _ = p.sites.countP (read ∘ after f) := by rw [sites_pass h, List.countP_map]
    _ = p.sites.countP read := by
      apply List.countP_congr
      intro t _
      rw [Function.comp_apply, hread]
    _ = p.nodes.countP read := (countP_nodes_eq hsite p).symm

theorem events_pass_perm (h : Rewrite f) (p : Program) :
    (p.pass f).events.Perm (p.nodes.flatMap fun n => (f n).events) := by
  have he : (p.pass f).events = p.body.flatMap fun t => (t.traverse f).events := by
    simp [pass, events_traverseAll]
  rw [he, nodes, List.flatMap_assoc]
  exact List.Perm.flatMap_left _ fun t _ => h.events_perm t

theorem wrapped_pass_eq (h : Rewrite f) (p : Program) :
    (p.pass f).wrapped = p.nodes.any fun n => (f n).wrapped := by
  simp [wrapped_pass, nodes, h.wrapped_eq]

theorem wrapped_wrap_eq (p : Program) :
    p.wrap.wrapped = p.sites.any fun t => (wrapNode t).wrapped := by
  have hsite : ∀ t, (wrapNode t).wrapped = true → t.isSite = true := by
    intro t ht
    by_contra hs
    have hpure : wrapNode t = pure t := rewrite_wrapNode.elsewhere (by simpa using hs)
    rw [hpure, wrapped_pure] at ht
    cases ht
  rw [wrap_eq_pass, wrapped_pass_eq rewrite_wrapNode]
  exact any_nodes_eq hsite p

/-- A program in which nothing is wrapped is left as it is. -/
theorem wrap_eq_self (h : p.wrap.wrapped = false) : p.wrap.value = p := by
  rw [wrap_eq_pass, wrapped_pass_eq rewrite_wrapNode, List.any_eq_false] at h
  have hitem : ∀ t ∈ p.body, t.after wrapNode = id t := by
    intro t ht
    apply after_eq_self
    intro n hn
    have hm : n ∈ p.nodes := List.mem_flatMap.2 ⟨t, ht, hn⟩
    exact value_wrapNode_eq_self (by simpa using h n hm)
  rw [wrap_eq_pass, value_pass, List.map_congr_left hitem, List.map_id]

def spanned (start stop : Nat) : String × Tree := ("span", leaf (.span ⟨start, stop⟩))

/-- `"use strict"; props => class extends Component { render() { props => {} } };` -/
def sample : Program where
  kind := .script
  span := ⟨1, 77⟩
  interpreter := none
  body :=
    [expressionStatement (stringLiteral "use strict" [spanned 1 13, ("raw", leaf .null)])
      [spanned 1 14],
    expressionStatement
      (arrow [identifier "props" [spanned 15 20]]
        (classDef .expression (leaf .null) (identifier "Component" [spanned 38 47])
          [method (identifier "render" [spanned 50 56]) false
            (record [spanned 50 73, ("body", block ⟨59, 73⟩ 0
              [expressionStatement
                (arrow [identifier "props" [spanned 61 66]] (block ⟨70, 72⟩ 0 []) [spanned 61 72])
                [spanned 61 72]])])
            [spanned 50 73]]
          [spanned 24 75])
        [spanned 15 75])
      [spanned 15 76]]

/-- `class Foo extends Component { render() {} }` -/
def classSample : Program where
  kind := .script
  span := ⟨1, 44⟩
  interpreter := none
  body :=
    [classDef .declaration (identifier "Foo" [spanned 7 10])
      (identifier "Component" [spanned 19 28])
      [method (identifier "render" [spanned 31 37]) false
        (record [spanned 31 42, ("body", block ⟨40, 42⟩ 0 [])]) [spanned 31 42]]
      [spanned 1 44]]

end RenderGuard.Program
