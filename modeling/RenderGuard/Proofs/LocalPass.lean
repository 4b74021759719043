import RenderGuard.Proofs.Children
import RenderGuard.Proofs.Reading

/-! Passes that change nothing but the members of classes and the bodies of arrows. -/
namespace RenderGuard.Tree

open Component Fragment Traced

variable {f g : Tree → Traced Tree} {t u : Tree}

/-- A node that a pass may change. -/
def isSite : Tree → Bool
  | arrow .. | classDef .. => true
  | _ => false

/-- The classes and arrows of a tree, each before those inside it. -/
def sites (t : Tree) : List Tree := t.nodes.filter isSite

/-- The classes and arrows below the top of a tree. -/
def sitesBelow (t : Tree) : List Tree := t.children.flatMap sites

theorem sites_eq (t : Tree) :
    t.sites = (if t.isSite then [t] else []) ++ t.sitesBelow := by
  rw [sites, nodes_eq, List.filter_cons, List.filter_flatMap]
  split <;> rfl

theorem mem_sites : u ∈ t.sites ↔ u ∈ t.nodes ∧ u.isSite = true := List.mem_filter

/-- What is found at classes and arrows only is found without looking anywhere else. -/
theorem flatMap_filter_isSite {α : Type} {read : Tree → List α}
    (hsite : ∀ t, t.isSite = false → read t = []) (ts : List Tree) :
    (ts.filter isSite).flatMap read = ts.flatMap read := by
  induction ts with
  | nil => rfl
  | cons t ts ih =>
    rw [List.flatMap_cons, List.filter_cons]
    split
    · rw [List.flatMap_cons, ih]
    · next hs => rw [hsite t (by simpa using hs), List.nil_append, ih]

theorem any_filter_isSite {read : Tree → Bool} (hsite : ∀ t, t.isSite = false → read t = false)
    (ts : List Tree) : (ts.filter isSite).any read = ts.any read := by
  rw [List.any_filter]
  apply any_congr_of_mem
  intro t _
  cases hs : t.isSite with
  | true => rfl
  | false => rw [hsite t hs, Bool.and_false]

structure LocalPass (f : Tree → Traced Tree) : Prop where
  elsewhere : ∀ {t}, t.isSite = false → f t = pure t
  atArrow : ∀ params body attrs, ∃ body',
    (f (arrow params body attrs)).value = arrow params body' attrs
  atClass : ∀ form name superClass members attrs, ∃ members',
    (f (classDef form name superClass members attrs)).value =
      classDef form name superClass members' attrs

namespace LocalPass

theorem after_elsewhere (h : LocalPass f) (ht : t.isSite = false) :
    t.after f = t.mapChildren (after f) := by
  rw [after_eq, h.elsewhere]
  · rfl
  · cases t <;> simp_all [isSite, mapChildren]

theorem after_arrow (h : LocalPass f) (params : List Tree) (body : Tree)
    (attrs : List (String × Tree)) :
    ∃ body', (arrow params body attrs).after f =
      arrow (params.map (after f)) body' (mapFields (after f) attrs) := by
  rw [after_eq]
  exact h.atArrow _ _ _

theorem after_classDef (h : LocalPass f) (form : ClassForm) (name superClass : Tree)
    (members : List Tree) (attrs : List (String × Tree)) :
    ∃ members', (classDef form name superClass members attrs).after f =
      classDef form (name.after f) (superClass.after f) members' (mapFields (after f) attrs) := by
  rw [after_eq]
  exact h.atClass _ _ _ _ _

/-- What is read off a node without looking at the members of classes and the bodies of arrows
stays as it is. -/
theorem eq_after {α : Type} (h : LocalPass f) (read : Tree → α)
    (hmap : ∀ t, read (t.mapChildren (after f)) = read t)
    (harrow : ∀ params body body' attrs,
      read (arrow params body' attrs) = read (arrow params body attrs))
    (hclass : ∀ form name superClass members members' attrs,
      read (classDef form name superClass members' attrs) =
        read (classDef form name superClass members attrs))
    (t : Tree) : read (t.after f) = read t := by
  rw [after_eq, ← hmap t]
  generalize t.mapChildren (after f) = u
  cases u with
  | arrow params body attrs =>
    obtain ⟨body', he⟩ := h.atArrow params body attrs
    rw [he]
    exact harrow _ _ _ _
  | classDef form name superClass members attrs =>
    obtain ⟨members', he⟩ := h.atClass form name superClass members attrs
    rw [he]
    exact hclass _ _ _ _ _ _
  | _ =>
    rw [h.elsewhere rfl]
    rfl

theorem isSite_after (h : LocalPass f) (t : Tree) : (t.after f).isSite = t.isSite :=
  h.eq_after isSite (fun t => by cases t <;> rfl) (fun _ _ _ _ => rfl)
    (fun _ _ _ _ _ _ => rfl) t

/-- Code without classes and arrows comes through as it is, and nothing is reported in it. -/
theorem traverse_of_sites_eq_nil (h : LocalPass f) (ht : t.sites = []) :
    t.traverse f = pure t := by
  apply traverse_eq_pure
  intro n hn
  apply h.elsewhere
  by_contra hs
  have hm : n ∈ t.sites := mem_sites.2 ⟨hn, by simpa using hs⟩
  simp [ht] at hm

theorem after_of_sites_eq_nil (h : LocalPass f) (ht : t.sites = []) : t.after f = t := by
  rw [after, h.traverse_of_sites_eq_nil ht]
  rfl

theorem map_after_eq_self (h : LocalPass f) {ts : List Tree} (hts : ∀ t ∈ ts, t.sites = []) :
    ts.map (after f) = ts := by
  have hid : ts.map (after f) = ts.map id :=
    List.map_congr_left fun t ht => h.after_of_sites_eq_nil (hts t ht)
  exact hid.trans (List.map_id ts)

theorem any_wrapped_eq_false (h : LocalPass f) {ts : List Tree} (hts : ∀ t ∈ ts, t.sites = []) :
    (ts.any fun t => (t.traverse f).wrapped) = false := by
  rw [List.any_eq_false]
  intro t ht
  have hpure : t.traverse f = pure t := h.traverse_of_sites_eq_nil (hts t ht)
  simp [hpure]

theorem comp (hf : LocalPass f) (hg : LocalPass g) : LocalPass fun t => f t >>= g where
  elsewhere ht := by
    rw [hf.elsewhere ht, pure_bind, hg.elsewhere ht]
  atArrow params body attrs := by
    obtain ⟨body', he⟩ := hf.atArrow params body attrs
    rw [value_bind, he]
    exact hg.atArrow params body' attrs
  atClass form name superClass members attrs := by
    obtain ⟨members', he⟩ := hf.atClass form name superClass members attrs
    rw [value_bind, he]
    exact hg.atClass form name superClass members' attrs

theorem identifierName?_after (h : LocalPass f) (t : Tree) :
    identifierName? (t.after f) = identifierName? t :=
  h.eq_after identifierName? (fun t => by cases t <;> rfl) (fun _ _ _ _ => rfl)
    (fun _ _ _ _ _ _ => rfl) t

theorem literal?_after (h : LocalPass f) (t : Tree) : (t.after f).literal? = t.literal? :=
  h.eq_after literal? (fun t => by cases t <;> rfl) (fun _ _ _ _ => rfl)
    (fun _ _ _ _ _ _ => rfl) t

theorem isNamed_after (h : LocalPass f) (name : String) (m : Tree) :
    isNamed name (m.after f) = isNamed name m := by
  apply h.eq_after (isNamed name)
  · intro t
    cases t with
    | method key isStatic function attrs =>
      simp only [mapChildren, isNamed_method, h.identifierName?_after]
    | _ => rfl
  · intros
    rfl
  · intros
    rfl

theorem isQuoted_after (h : LocalPass f) (name : String) (m : Tree) :
    isQuoted name (m.after f) = isQuoted name m := by
  apply h.eq_after (isQuoted name)
  · intro t
    cases t with
    | method key isStatic function attrs =>
      simp only [mapChildren, isQuoted_method, h.literal?_after]
    | _ => rfl
  · intros
    rfl
  · intros
    rfl

theorem isMarker_after (h : LocalPass f) (m : Tree) : isMarker (m.after f) = isMarker m := by
  simp only [isMarker, h.isNamed_after, h.isQuoted_after]

theorem locateRender_map (h : LocalPass f) (members : List Tree) :
    locateRender (members.map (after f)) = locateRender members := by
  simp only [locateRender, lastIndex?_map, List.any_map, Function.comp_def, h.isNamed_after,
    h.isMarker_after]

theorem isPropsOnly_map (h : LocalPass f) (params : List Tree) :
    isPropsOnly (params.map (after f)) = isPropsOnly params := by
  match params with
  | [] => rfl
  | [param] =>
    simp only [List.map_cons, List.map_nil, isPropsOnly_singleton, h.identifierName?_after]
  | _ :: _ :: _ => simp [isPropsOnly]

/-- Parentheses are no site, so those around an expression are those around what becomes of it. -/
theorem unparenthesized_after (h : LocalPass f) (t : Tree) :
    (t.after f).unparenthesized = t.unparenthesized.after f := by
  induction t using inductionOnChildren with
  | step t ih =>
    cases t with
    | parenthesized inner attrs =>
      rw [h.after_elsewhere rfl]
      exact ih inner (by simp [children])
    | arrow params body attrs =>
      obtain ⟨body', he⟩ := h.after_arrow params body attrs
      simp only [unparenthesized, he]
    | classDef form name superClass members attrs =>
      obtain ⟨members', he⟩ := h.after_classDef form name superClass members attrs
      simp only [unparenthesized, he]
    | _ =>
      simp only [unparenthesized]
      rw [h.after_elsewhere rfl]
      rfl

theorem isBase_after (h : LocalPass f) (t : Tree) : isBase (t.after f) = isBase t := by
  rw [isBase_eq, isBase_eq, h.unparenthesized_after]
  generalize t.unparenthesized = u
  apply h.eq_after namesBase
  · intro t
    cases t with
    | memberAccess object property attrs =>
      simp only [mapChildren, namesBase, h.identifierName?_after]
    | _ => rfl
  · intros
    rfl
  · intros
    rfl

end LocalPass

end RenderGuard.Tree
