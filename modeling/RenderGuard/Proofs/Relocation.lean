import RenderGuard.Proofs.Change
import RenderGuard.Proofs.Paths

/-! Where wrapping takes the nodes of a tree. The wrapped nodes above a node decide it. -/
namespace RenderGuard

open Component Fragment Traced

/-- What a node is for the node above it, as far as wrapping goes by that. -/
inductive Place where
  | plain
  | arrowBody
  | render
  | renderName
  deriving DecidableEq

namespace Tree

variable {q : Place} {t s c u : Tree} {e : Edge} {a b : Path}

/-- The index of the render that wrapping puts behind a new one. -/
def renderIndex? : Tree → Option Nat
  | classDef _ _ superClass members _ =>
    if isBase superClass && !members.any isMarker then lastIndex? (isNamed renderName) members
    else none
  | _ => none

/-- Whether a node is an arrow component whose body is an expression. -/
def returnsBody : Tree → Bool
  | arrow params body _ => isPropsOnly params && body.blockSpan?.isNone
  | _ => false

/-- The place of the child at an edge. -/
def place (q : Place) (t : Tree) : Edge → Place
  | .body => if t.isPropsArrow then .arrowBody else .plain
  | .member i => if t.renderIndex? = some i then .render else .plain
  | .key => if q = .render then .renderName else .plain
  | _ => .plain

def placeAt (q : Place) (t : Tree) : Path → Place
  | [] => q
  | e :: a =>
    match t.child? e with
    | some c => c.placeAt (t.place q e) a
    | none => .plain

/-- Where an edge leads after wrapping: one member on in a class, into the guard in an arrow. -/
def shifted (q : Place) (t : Tree) : Edge → Path
  | .member j => if t.renderIndex?.isSome then [.member (j + 1)] else [.member j]
  | .stmt j => if q = .arrowBody then [.stmt 0, .field 1 "block", .stmt j] else [.stmt j]
  | .body =>
    if t.returnsBody then [.body, .stmt 0, .field 1 "block", .stmt 0, .field 1 "argument"]
    else [.body]
  | e => [e]

/-- Where a path leads after wrapping. -/
def relocate (q : Place) (t : Tree) : Path → Path
  | [] => []
  | e :: a => t.shifted q e ++
    match t.child? e with
    | some c => c.relocate (t.place q e) a
    | none => a

/-- An identifier under another name. -/
def named (name : String) : Tree → Tree
  | identifier _ attrs => identifier name attrs
  | t => t

/-- The node whose wrapping stands for the one at a place: the block of a wrapped arrow is guarded,
and a render goes by the marker. -/
def recast : Place → Tree → Tree
  | .plain, t => t
  | .arrowBody, block span context stmts => guardBody (block span context stmts)
  | .arrowBody, t => t
  | .render, t => renamed marker t
  | .renderName, t => t.named marker

/-- What stands in the wrapped tree for the node at a place. -/
def placed (q : Place) (t : Tree) : Tree := (t.recast q).after wrapNode

/-- A step puts a class or an arrow component behind the guard and leaves any other node alone. -/
theorem value_wrapNode_cases (t : Tree) :
    (∃ form name superClass members attrs i, t = classDef form name superClass members attrs ∧
      t.renderIndex? = some i ∧
      (wrapNode t).value = classDef form name superClass (guardMembers i members) attrs) ∨
    (∃ params body attrs, t = arrow params body attrs ∧ t.isPropsArrow = true ∧
      (wrapNode t).value = arrow params (guardBody body) attrs) ∨
    (t.renderIndex? = none ∧ t.isPropsArrow = false ∧ (wrapNode t).value = t) := by
  cases t with
  | classDef form name superClass members attrs =>
    rw [wrapNode_classDef]
    rcases wrapClass_cases form name superClass members attrs with
      ⟨hb, hm, he⟩ | ⟨hb, hm, i, hi, he⟩ | ⟨hn, he⟩
    · exact Or.inr (Or.inr ⟨by simp [renderIndex?, hm], rfl, by rw [he]⟩)
    · exact Or.inl ⟨form, name, superClass, members, attrs, i, rfl,
        by simp [renderIndex?, hb, hm, hi], by rw [he]⟩
    · refine Or.inr (Or.inr ⟨?_, rfl, by rw [he, value_pure]⟩)
      cases hb : isBase superClass with
      | false => simp [renderIndex?, hb]
      | true =>
        rw [hb, Bool.true_and, Bool.or_eq_false_iff, any_eq_isSome_lastIndex?] at hn
        have hi : lastIndex? (isNamed renderName) members = none := by simpa using hn.1
        simp [renderIndex?, hi]
  | arrow params body attrs =>
    rw [wrapNode_arrow]
    rcases wrapArrow_cases params body attrs with ⟨hp, he⟩ | ⟨hp, he⟩
    · exact Or.inr (Or.inl ⟨params, body, attrs, rfl, hp, by rw [he]⟩)
    · exact Or.inr (Or.inr ⟨rfl, hp, by rw [he, value_pure]⟩)
  | _ => exact Or.inr (Or.inr ⟨rfl, rfl, rfl⟩)

theorem child?_after (t : Tree) (e : Edge) :
    (t.after wrapNode).child? e = ((wrapNode t).value.child? e).map (after wrapNode) := by
  rw [after_eq, rewrite_wrapNode.commutes rewrite_wrapNode.toLocalPass, value_map,
    child?_mapChildren]

theorem at?_singleton_after (h : (wrapNode t).value.child? e = some c) :
    (t.after wrapNode).at? [e] = some (c.after wrapNode) := by
  rw [at?_cons, child?_after, h]
  rfl

theorem returnsBody_of_isPropsArrow (h : t.isPropsArrow = false) : t.returnsBody = false := by
  cases t <;> simp_all [isPropsArrow, returnsBody]

theorem getElem?_guardMembers_succ (i j : Nat) (members : List Tree) :
    (guardMembers i members)[j + 1]? =
      members[j]?.map fun m => if i = j then renamed marker m else m := by
  rw [guardMembers, List.getElem?_cons_succ, List.getElem?_modify]
  split <;> simp

theorem after_guardBody_of_blockSpan?_eq_none {body : Tree} (hb : body.blockSpan? = none) :
    (guardBody body).after wrapNode =
      block .dummy 0 [guardedBody [returned (body.after wrapNode)]] := by
  have hpass : LocalPass wrapNode := rewrite_wrapNode.toLocalPass
  rw [hpass.after_guardBody, guardBody_of_blockSpan?_eq_none]
  rw [hpass.blockSpan?_after, hb]

/-- What stands at the end of a shifted edge, for a node whose own place asks for nothing. -/
theorem at?_shifted_plain (h : t.child? e = some c) :
    (t.after wrapNode).at? (t.shifted .plain e) = some (placed (t.place .plain e) c) := by
  rcases value_wrapNode_cases t with
    ⟨form, name, superClass, members, attrs, i, rfl, hi, he⟩ | ⟨params, body, attrs, rfl, hp, he⟩ |
      ⟨hi, hp, he⟩
  · cases e with
    | member j =>
      have hj : (guardMembers i members)[j + 1]? =
          some (if i = j then renamed marker c else c) := by
        rw [getElem?_guardMembers_succ]
        exact congrArg (Option.map _) h
      simp only [shifted, hi, Option.isSome_some, if_true, place, Option.some.injEq]
      rw [at?_singleton_after (by rw [he]; exact hj)]
      split <;> rfl
    | name | superClass | field i name => exact at?_singleton_after (by rw [he]; exact h)
    | _ => cases h
  · cases e with
    | body =>
      obtain rfl : body = c := Option.some.inj h
      simp only [place, hp, if_true, shifted]
      cases hb : body.blockSpan? with
      | some span =>
        have hr : returnsBody (arrow params body attrs) = false := by simp [returnsBody, hb]
        rw [hr, if_neg Bool.false_ne_true, at?_singleton_after (by rw [he]; rfl)]
        cases body <;> simp_all [blockSpan?, placed, recast]
      | none =>
        have hr : returnsBody (arrow params body attrs) = true := by
          rw [returnsBody, hb]
          exact (Bool.and_true _).trans hp
        have hplain : recast .arrowBody body = body := by
          cases body <;> simp_all [blockSpan?, recast]
        rw [hr, if_pos rfl, at?_cons, child?_after, he, placed, hplain]
        change ((guardBody body).after wrapNode).at? _ = _
        rw [after_guardBody_of_blockSpan?_eq_none hb]
        rfl
    | param j | field i name => exact at?_singleton_after (by rw [he]; exact h)
    | _ => cases h
  · have hr : t.returnsBody = false := returnsBody_of_isPropsArrow hp
    have hshifted : t.shifted .plain e = [e] := by cases e <;> simp [shifted, hi, hr]
    have hplace : t.place .plain e = .plain := by cases e <;> simp [place, hi, hp]
    rw [hshifted, hplace, at?_singleton_after (by rw [he]; exact h)]
    rfl

theorem renamed_method (name : String) (key : Tree) (isStatic : Bool) (function : Tree)
    (attrs : List (String × Tree)) :
    renamed name (method key isStatic function attrs) =
      method (key.named name) isStatic function attrs := by
  cases key <;> rfl

/-- What is read off a node without looking at the statements of blocks, the keys of methods and the
names of identifiers does not depend on its place. -/
theorem eq_recast {α : Type} (read : Tree → α)
    (hblock : ∀ span context stmts stmts',
      read (block span context stmts') = read (block span context stmts))
    (hmethod : ∀ key key' isStatic function attrs,
      read (method key' isStatic function attrs) = read (method key isStatic function attrs))
    (hname : ∀ name name' attrs, read (identifier name' attrs) = read (identifier name attrs))
    (q : Place) (t : Tree) : read (t.recast q) = read t := by
  cases q with
  | plain => rfl
  | arrowBody =>
    cases t with
    | block span context stmts => exact hblock _ _ _ _
    | _ => rfl
  | render =>
    cases t with
    | method key isStatic function attrs =>
      rw [recast, renamed_method]
      exact hmethod _ _ _ _ _
    | _ => rfl
  | renderName =>
    cases t with
    | identifier name attrs => exact hname _ _ _
    | _ => rfl

theorem renderIndex?_recast (q : Place) (t : Tree) : (t.recast q).renderIndex? = t.renderIndex? :=
  eq_recast renderIndex? (fun _ _ _ _ => rfl) (fun _ _ _ _ _ => rfl) (fun _ _ _ => rfl) q t

theorem isPropsArrow_recast (q : Place) (t : Tree) : (t.recast q).isPropsArrow = t.isPropsArrow :=
  eq_recast isPropsArrow (fun _ _ _ _ => rfl) (fun _ _ _ _ _ => rfl) (fun _ _ _ => rfl) q t

theorem returnsBody_recast (q : Place) (t : Tree) : (t.recast q).returnsBody = t.returnsBody :=
  eq_recast returnsBody (fun _ _ _ _ => rfl) (fun _ _ _ _ _ => rfl) (fun _ _ _ => rfl) q t

theorem kind_recast (q : Place) (t : Tree) : (t.recast q).kind = t.kind :=
  eq_recast kind (fun _ _ _ _ => rfl) (fun _ _ _ _ _ => rfl) (fun _ _ _ => rfl) q t

/-- Whether a node at a place has its children one by one where they were, but for a new name. -/
def keepsChildren (q : Place) (t : Tree) : Prop := q = .arrowBody → t.blockSpan? = none

theorem child?_recast (h : keepsChildren q t) (e : Edge) :
    (t.recast q).child? e =
      (t.child? e).map fun c => if q = .render ∧ e = .key then c.named marker else c := by
  cases q with
  | plain => simp [recast]
  | arrowBody =>
    have hb : t.blockSpan? = none := h rfl
    cases t <;> simp_all [blockSpan?, recast]
  | render =>
    cases t with
    | method key isStatic function attrs =>
      rw [recast, renamed_method]
      cases e <;> simp [child?]
    | _ => cases e <;> simp [recast, renamed, child?]
  | renderName =>
    cases t with
    | identifier name attrs => cases e <;> simp [recast, named, child?]
    | _ => simp [recast, named]

theorem shifted_recast (h : keepsChildren q t) (hc : t.child? e = some c) :
    (t.recast q).shifted .plain e = t.shifted q e := by
  cases e with
  | member j => simp only [shifted, renderIndex?_recast]
  | body => simp only [shifted, returnsBody_recast]
  | stmt j =>
    have hq : q ≠ .arrowBody := by
      rintro rfl
      have hb : t.blockSpan? = none := h rfl
      cases t <;> simp_all [blockSpan?, child?]
    simp [shifted, hq]
  | _ => rfl

theorem placed_place_recast (q : Place) (t c : Tree) (e : Edge) :
    placed ((t.recast q).place .plain e) (if q = .render ∧ e = .key then c.named marker else c) =
      placed (t.place q e) c := by
  cases e with
  | key =>
    by_cases hq : q = .render
    · simp [place, placed, recast, hq]
    · simp [place, hq]
  | member j => simp [place, renderIndex?_recast]
  | body => simp [place, isPropsArrow_recast]
  | _ => simp [place]

theorem placed_arrowBody_block (span : Span) (context : Nat) (stmts : List Tree) :
    placed .arrowBody (block span context stmts) =
      block span context [guardedBody (stmts.map (after wrapNode))] := by
  have hpass : LocalPass wrapNode := rewrite_wrapNode.toLocalPass
  have hbody : (block span context stmts).after wrapNode =
      block span context (stmts.map (after wrapNode)) := hpass.after_elsewhere rfl
  rw [placed, recast, hpass.after_guardBody, hbody]
  rfl

/-- What stands at the end of a shifted edge. -/
theorem at?_shifted (q : Place) (h : t.child? e = some c) :
    (placed q t).at? (t.shifted q e) = some (placed (t.place q e) c) := by
  by_cases hk : keepsChildren q t
  · have hc := child?_recast hk e
    rw [h] at hc
    rw [← shifted_recast hk h, ← placed_place_recast]
    exact at?_shifted_plain hc
  · obtain ⟨rfl, hb⟩ : q = .arrowBody ∧ t.blockSpan? ≠ none := by
      simpa [keepsChildren] using hk
    cases t with
    | block span context stmts =>
      cases e with
      | stmt j =>
        have hj : (stmts.map (after wrapNode))[j]? = some (c.after wrapNode) := by
          rw [List.getElem?_map]
          exact congrArg (Option.map _) h
        rw [placed_arrowBody_block]
        change (stmts.map (after wrapNode))[j]?.bind some = _
        rw [hj]
        rfl
      | _ => cases h
    | _ => exact absurd rfl hb

/-- At the end of a relocated path stands what the place of the node makes of it. -/
theorem at?_relocate (q : Place) (h : t.at? a = some s) :
    (placed q t).at? (t.relocate q a) = some (placed (t.placeAt q a) s) := by
  induction a generalizing q t with
  | nil =>
    obtain rfl : t = s := Option.some.inj h
    rfl
  | cons e a ih =>
    obtain ⟨c, hc, hs⟩ := Option.bind_eq_some_iff.1 h
    rw [relocate, placeAt, hc, at?_append, at?_shifted q hc]
    exact ih _ hs

theorem placed_of_isSite (h : s.isSite = true) (q : Place) : placed q s = s.after wrapNode := by
  rw [placed]
  cases q <;> cases s <;> simp_all [isSite, recast, renamed, named]

theorem kind_placed (q : Place) (s : Tree) : (placed q s).kind = s.kind := by
  rw [placed, rewrite_wrapNode.kind_after, kind_recast]

theorem scalars_placed (q : Place) (s : Tree) :
    (placed q s).scalars = if q = .renderName then (s.named marker).scalars else s.scalars := by
  rw [placed, rewrite_wrapNode.scalars_after]
  cases q with
  | plain => rfl
  | arrowBody => cases s <;> rfl
  | render =>
    cases s with
    | method key isStatic function attrs =>
      rw [recast, renamed_method]
      rfl
    | _ => rfl
  | renderName => rfl

theorem shifted_ne_nil (q : Place) (t : Tree) (e : Edge) : t.shifted q e ≠ [] := by
  cases e with
  | member j | stmt j | body =>
    rw [shifted]
    split <;> exact List.cons_ne_nil _ _
  | _ => exact List.cons_ne_nil _ _

/-- The edge that was shifted to the front of a path. -/
def unshifted? (q : Place) (t : Tree) : Path → Option Edge
  | .member j :: _ => some (.member (if t.renderIndex?.isSome then j - 1 else j))
  | .stmt i :: a =>
    if q = .arrowBody then
      match a with
      | _ :: .stmt j :: _ => some (.stmt j)
      | _ => none
    else some (.stmt i)
  | e :: _ => some e
  | [] => none

theorem unshifted?_shifted (q : Place) (t : Tree) (e : Edge) (a : Path) :
    unshifted? q t (t.shifted q e ++ a) = some e := by
  cases e with
  | member j =>
    rw [shifted]
    split
    · next h => simp [unshifted?, h]
    · next h => simp [unshifted?, h]
  | stmt j =>
    rw [shifted]
    split
    · next h => simp [unshifted?, h]
    · next h => simp [unshifted?, h]
  | body =>
    rw [shifted]
    split <;> rfl
  | _ => rfl

theorem relocate_injective (q : Place) (t : Tree) : Function.Injective (t.relocate q) := by
  intro a b h
  induction a generalizing q t b with
  | nil =>
    cases b with
    | nil => rfl
    | cons e b => exact absurd (List.append_eq_nil_iff.1 h.symm).1 (shifted_ne_nil q t e)
  | cons d a ih =>
    cases b with
    | nil => exact absurd (List.append_eq_nil_iff.1 h).1 (shifted_ne_nil q t d)
    | cons e b =>
      have hedge : some d = some e := by
        have hfront := congrArg (unshifted? q t) h
        rwa [relocate, relocate, unshifted?_shifted, unshifted?_shifted] at hfront
      obtain rfl : d = e := Option.some.inj hedge
      rw [relocate, relocate, List.append_cancel_left_eq] at h
      cases hc : t.child? d with
      | none =>
        rw [hc] at h
        exact congrArg (d :: ·) h
      | some c =>
        rw [hc] at h
        exact congrArg (d :: ·) (ih _ _ h)

end Tree

end RenderGuard
