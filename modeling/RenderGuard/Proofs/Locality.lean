import RenderGuard.Proofs.Relocation

/-! Wrapping is local: beside the nodes of the tree, a wrapped tree has only added code. -/
namespace RenderGuard

open Component Fragment Traced

namespace Tree

variable {q : Place} {t c u : Tree} {e : Edge} {b : Path}

/-- The code that is added below a node and the edge it stands at. -/
def added? (q : Place) (t : Tree) : Option (Edge × Tree) :=
  if t.renderIndex?.isSome then some (.member 0, delegatingRender)
  else if t.returnsBody then
    some (.body, block .dummy 0 [guardedBody [node "ReturnStatement" [unspanned]]])
  else if q = .arrowBody && t.blockSpan?.isSome then some (.stmt 0, guardedBody [])
  else none

/-- Whether a node has the type of another and all the scalars of it. -/
def Resembles (u v : Tree) : Prop := u.kind = v.kind ∧ v.scalars ⊆ u.scalars

theorem Resembles.refl (u : Tree) : Resembles u u := ⟨rfl, fun _ h => h⟩

/-- A path into the guard leads to a guarded statement or to a node that any guard has there. -/
theorem at?_guardedBody {stmts : List Tree} (h : (guardedBody stmts).at? b = some u)
    (other : List Tree) :
    (∃ j s rest, stmts[j]? = some s ∧ s.at? rest = some u ∧
      b = .field 1 "block" :: .stmt j :: rest) ∨
    ∃ v, (guardedBody other).at? b = some v ∧ Resembles u v := by
  cases b with
  | nil =>
    obtain rfl : guardedBody stmts = u := Option.some.inj h
    exact Or.inr ⟨guardedBody other, rfl, rfl, fun _ h => h⟩
  | cons e b =>
    by_cases he : e = .field 1 "block"
    · subst he
      cases b with
      | nil =>
        obtain rfl : block .dummy 0 stmts = u := Option.some.inj h
        exact Or.inr ⟨block .dummy 0 other, rfl, rfl, fun _ h => h⟩
      | cons d b =>
        cases d with
        | stmt j =>
          have hblock : (block .dummy 0 stmts).at? (.stmt j :: b) = some u := h
          obtain ⟨s, hs, hu⟩ := Option.bind_eq_some_iff.1 hblock
          exact Or.inl ⟨j, s, b, hs, hu, rfl⟩
        | _ => cases h
    · have hsame : (guardedBody stmts).child? e = (guardedBody other).child? e := by
        cases e with
        | field i name =>
          match i with
          | 0 | 2 | 3 | _ + 4 => rfl
          | 1 =>
            have hname : "block" ≠ name := fun hn => he (by rw [hn])
            simp [guardedBody, guarded, child?, field?, hname]
        | _ => rfl
      rw [at?_cons, hsame] at h
      exact Or.inr ⟨u, h, .refl u⟩

theorem at?_returned (h : (returned t).at? b = some u) :
    (∃ rest, b = .field 1 "argument" :: rest) ∨
    ∃ v, (node "ReturnStatement" [unspanned]).at? b = some v ∧ Resembles u v := by
  cases b with
  | nil =>
    obtain rfl : returned t = u := Option.some.inj h
    refine Or.inr ⟨_, rfl, rfl, ?_⟩
    exact List.cons_subset_cons _ (List.nil_subset _)
  | cons e b =>
    by_cases he : e = .field 1 "argument"
    · exact Or.inl ⟨b, by rw [he]⟩
    · have hsame : (returned t).child? e = (node "ReturnStatement" [unspanned]).child? e := by
        cases e with
        | field i name =>
          match i with
          | 0 | _ + 2 => rfl
          | 1 =>
            have hname : "argument" ≠ name := fun hn => he (by rw [hn])
            simp [returned, child?, field?, hname]
        | _ => rfl
      rw [at?_cons, hsame] at h
      exact Or.inr ⟨u, h, .refl u⟩

/-- A path into a body that is returned in the guard leads into what is returned or to a node of the
added code. -/
theorem at?_returningBody
    (h : (block .dummy 0 [guardedBody [returned t]]).at? b = some u) :
    (∃ rest, b = [.stmt 0, .field 1 "block", .stmt 0, .field 1 "argument"] ++ rest) ∨
    ∃ v, (block .dummy 0 [guardedBody [node "ReturnStatement" [unspanned]]]).at? b = some v ∧
      Resembles u v := by
  cases b with
  | nil =>
    obtain rfl := Option.some.inj h
    exact Or.inr ⟨_, rfl, rfl, fun _ h => h⟩
  | cons e b =>
    cases e with
    | stmt i =>
      cases i with
      | zero =>
        rcases at?_guardedBody h [node "ReturnStatement" [unspanned]] with
          ⟨j, s, rest, hs, hu, rfl⟩ | hv
        · cases j with
          | zero =>
            obtain rfl : returned t = s := Option.some.inj hs
            rcases at?_returned hu with ⟨rest, rfl⟩ | hv
            · exact Or.inl ⟨rest, rfl⟩
            · exact Or.inr hv
          | succ j => cases hs
        · exact Or.inr hv
      | succ i => cases h
    | _ => cases h

/-- A path into a wrapped node starts with a shifted edge of the node or leads into the code that is
added below it. -/
theorem shifted_or_added_plain (h : (t.after wrapNode).at? (e :: b) = some u) :
    (∃ d c rest, t.child? d = some c ∧ e :: b = t.shifted .plain d ++ rest) ∨
    ∃ w v, t.added? .plain = some (e, w) ∧ w.at? b = some v ∧ Resembles u v := by
  have hpass : LocalPass wrapNode := rewrite_wrapNode.toLocalPass
  rw [at?_cons, child?_after] at h
  obtain ⟨c', hc', hu⟩ := Option.bind_eq_some_iff.1 h
  obtain ⟨c, hc, rfl⟩ := Option.map_eq_some_iff.1 hc'
  rcases value_wrapNode_cases t with
    ⟨form, name, superClass, members, attrs, i, rfl, hi, he⟩ | ⟨params, body, attrs, rfl, hp, he⟩ |
      ⟨hi, hp, he⟩
  · rw [he] at hc
    cases e with
    | member j =>
      cases j with
      | zero =>
        obtain rfl : delegatingRender = c := Option.some.inj hc
        rw [hpass.after_of_sites_eq_nil sites_delegatingRender] at hu
        exact Or.inr ⟨delegatingRender, u, by simp [added?, hi], hu, .refl u⟩
      | succ j =>
        have hj : (guardMembers i members)[j + 1]? = some c := hc
        rw [getElem?_guardMembers_succ] at hj
        obtain ⟨m, hm, _⟩ := Option.map_eq_some_iff.1 hj
        exact Or.inl ⟨.member j, m, b, hm, by simp [shifted, hi]⟩
    | name => exact Or.inl ⟨.name, c, b, hc, rfl⟩
    | superClass => exact Or.inl ⟨.superClass, c, b, hc, rfl⟩
    | field i name => exact Or.inl ⟨.field i name, c, b, hc, rfl⟩
    | _ => cases hc
  · rw [he] at hc
    cases e with
    | body =>
      obtain rfl : guardBody body = c := Option.some.inj hc
      cases hb : body.blockSpan? with
      | some span => exact Or.inl ⟨.body, body, b, rfl, by simp [shifted, returnsBody, hb]⟩
      | none =>
        have hr : returnsBody (arrow params body attrs) = true := by
          rw [returnsBody, hb]
          exact (Bool.and_true _).trans hp
        rw [after_guardBody_of_blockSpan?_eq_none hb] at hu
        rcases at?_returningBody hu with ⟨rest, rfl⟩ | ⟨v, hv, hres⟩
        · exact Or.inl ⟨.body, body, rest, rfl, by simp [shifted, hr]⟩
        · exact Or.inr ⟨_, v, by simp [added?, renderIndex?, hr], hv, hres⟩
    | param j => exact Or.inl ⟨.param j, c, b, hc, rfl⟩
    | field i name => exact Or.inl ⟨.field i name, c, b, hc, rfl⟩
    | _ => cases hc
  · have hr : t.returnsBody = false := returnsBody_of_isPropsArrow hp
    rw [he] at hc
    refine Or.inl ⟨e, c, b, hc, ?_⟩
    cases e <;> simp [shifted, hi, hr]

theorem added?_recast (h : keepsChildren q t) : (t.recast q).added? .plain = t.added? q := by
  have hlast : (decide (q = .arrowBody) && t.blockSpan?.isSome) = false := by
    by_cases hq : q = .arrowBody
    · simp [h hq]
    · simp [hq]
  simp [added?, renderIndex?_recast, returnsBody_recast, hlast]

theorem shifted_or_added (h : (placed q t).at? (e :: b) = some u) :
    (∃ d c rest, t.child? d = some c ∧ e :: b = t.shifted q d ++ rest) ∨
    ∃ w v, t.added? q = some (e, w) ∧ w.at? b = some v ∧ Resembles u v := by
  by_cases hk : keepsChildren q t
  · rw [← added?_recast hk]
    rcases shifted_or_added_plain h with ⟨d, c', rest, hc', he⟩ | hadded
    · rw [child?_recast hk] at hc'
      obtain ⟨c, hc, _⟩ := Option.map_eq_some_iff.1 hc'
      exact Or.inl ⟨d, c, rest, hc, by rw [he, shifted_recast hk hc]⟩
    · exact Or.inr hadded
  · obtain ⟨rfl, hb⟩ : q = .arrowBody ∧ t.blockSpan? ≠ none := by
      simpa [keepsChildren] using hk
    cases t with
    | block span context stmts =>
      rw [placed_arrowBody_block] at h
      cases e with
      | stmt i =>
        cases i with
        | zero =>
          rcases at?_guardedBody h [] with ⟨j, s, rest, hs, _, rfl⟩ | ⟨v, hv, hres⟩
          · rw [List.getElem?_map] at hs
            obtain ⟨c, hc, _⟩ := Option.map_eq_some_iff.1 hs
            exact Or.inl ⟨.stmt j, c, rest, hc, rfl⟩
          · exact Or.inr ⟨guardedBody [], v, rfl, hv, hres⟩
        | succ i => cases h
      | _ => cases h
    | _ => exact absurd rfl hb

/-- Whether a path of a wrapped tree leads to a node of the code that was added below some node. -/
def Added (q : Place) (t : Tree) (b : Path) (u : Tree) : Prop :=
  ∃ a s e w r v, t.at? a = some s ∧ s.added? (t.placeAt q a) = some (e, w) ∧
    b = t.relocate q a ++ e :: r ∧ w.at? r = some v ∧ Resembles u v

theorem Added.below (hc : t.child? e = some c) (h : Added (t.place q e) c b u) :
    Added q t (t.shifted q e ++ b) u := by
  obtain ⟨a, s, d, w, r, v, hs, hadded, rfl, hv, hres⟩ := h
  refine ⟨e :: a, s, d, w, r, v, ?_, ?_, ?_, hv, hres⟩
  · rw [at?_cons, hc, Option.bind_some, hs]
  · rw [placeAt, hc]
    exact hadded
  · rw [relocate, hc, List.append_assoc]

/-- Every path of a wrapped tree is a relocated path of the tree or leads to added code. -/
theorem relocated_or_added (q : Place) (t : Tree) (b : Path) (u : Tree)
    (h : (placed q t).at? b = some u) :
    (∃ a s, t.at? a = some s ∧ t.relocate q a = b) ∨ Added q t b u := by
  induction hn : b.length using Nat.strongRecOn generalizing q t b with
  | ind n ih =>
    cases b with
    | nil => exact Or.inl ⟨[], t, rfl, rfl⟩
    | cons e b =>
      rcases shifted_or_added h with ⟨d, c, rest, hc, he⟩ | ⟨w, v, hadded, hv, hres⟩
      · have hlt : rest.length < n := by
          have hpos := List.length_pos_iff.2 (shifted_ne_nil q t d)
          have hlen := congrArg List.length he
          rw [List.length_append, hn] at hlen
          omega
        rw [he, at?_append, at?_shifted q hc, Option.bind_some] at h
        rw [he]
        rcases ih _ hlt _ c rest h rfl with ⟨a, s, hs, rfl⟩ | hbelow
        · refine Or.inl ⟨d :: a, s, ?_, ?_⟩
          · rw [at?_cons, hc, Option.bind_some, hs]
          · rw [relocate, hc]
        · exact Or.inr (hbelow.below hc)
      · exact Or.inr ⟨[], t, e, w, b, v, rfl, hadded, rfl, hv, hres⟩

end Tree

namespace Program

open RenderGuard.Tree

/-- The items of a program under one node. -/
def root (p : Program) : Tree := .list p.body

theorem root_wrap (p : Program) : p.wrap.value.root = p.root.after wrapNode := by
  rw [wrap_eq_pass, value_pass, root, root, rewrite_wrapNode.after_elsewhere rfl]
  rfl

/-- Every node is found again where relocation takes it, changed by its own wrapping alone, and no
two at one place. Whatever else stands in the wrapped program was added. -/
theorem every_node_keeps_its_place (p : Program) :
    { p.wrap.value with body := p.body } = p ∧
    (∀ t ∈ p.nodes, ∃ a, p.root.at? a = some t) ∧
    (∀ a t, p.root.at? a = some t →
      ∃ u, p.wrap.value.root.at? (p.root.relocate .plain a) = some u ∧ u.kind = t.kind ∧
        (t.isSite = true → u = t.wrap.value) ∧
        u.scalars = if p.root.placeAt .plain a = .renderName then (t.named marker).scalars
          else t.scalars) ∧
    Function.Injective (p.root.relocate .plain) ∧
    (∀ b u, p.wrap.value.root.at? b = some u →
      (∃ a t, p.root.at? a = some t ∧ p.root.relocate .plain a = b) ∨ p.root.Added .plain b u) := by
  rw [root_wrap]
  refine ⟨?_, ?_, ?_, relocate_injective .plain p.root, relocated_or_added .plain p.root⟩
  · rw [wrap_eq_pass, value_pass]
  · intro t ht
    apply exists_at?_of_mem_nodes
    obtain ⟨item, hitem, ht⟩ := List.mem_flatMap.1 ht
    exact mem_nodes_of_mem_children hitem ht
  · intro a t ha
    exact ⟨_, at?_relocate .plain ha, kind_placed _ t, fun hs => placed_of_isSite hs _,
      scalars_placed _ t⟩

/-- In the sample, the path from the second item to the arrow inside the class inside an arrow. -/
def innerArrowPath : Path :=
  [.item 1, .expression, .body, .member 0, .function, .field 1 "body", .stmt 0, .expression]

/-- The inner arrow stands two guards deeper and one member further on, wrapped as if alone. -/
theorem every_node_keeps_its_place_sample :
    ∃ t, sample.root.at? innerArrowPath = some t ∧ t.isSite = true ∧
      sample.wrap.value.root.at?
        [.item 1, .expression, .body, .stmt 0, .field 1 "block", .stmt 0, .field 1 "argument",
          .member 1, .function, .field 1 "body", .stmt 0, .expression] = some t.wrap.value := by
  obtain ⟨-, -, hplace, -, -⟩ := every_node_keeps_its_place sample
  refine ⟨_, rfl, rfl, ?_⟩
  obtain ⟨u, hu, -, hsite, -⟩ := hplace innerArrowPath _ rfl
  rw [← hsite rfl]
  exact hu

end Program

end RenderGuard
