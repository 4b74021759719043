import RenderGuard.Proofs.Locality
import RenderGuard.Proofs.Repetition

/-! How deep an arrow gets: each round puts one more guard around its statements. -/
namespace RenderGuard

open Component Fragment Traced

namespace Tree

variable {t : Tree} {params stmts : List Tree} {body : Tree} {attrs : List (String × Tree)}

/-- Statements inside `n` guards, each the only statement of the one around it. -/
def nestedGuards : Nat → List Tree → List Tree
  | 0, stmts => stmts
  | n + 1, stmts => [guardedBody (nestedGuards n stmts)]

theorem after_wrapNode_arrow (params : List Tree) (body : Tree) (attrs : List (String × Tree)) :
    (arrow params body attrs).after wrapNode =
      arrow (params.map (after wrapNode))
        (if isPropsOnly params then guardBody (body.after wrapNode) else body.after wrapNode)
        (mapFields (after wrapNode) attrs) := by
  rw [after_eq, mapChildren, wrapNode_arrow, wrapArrow, rewrite_wrapNode.isPropsOnly_map]
  split <;> rfl

theorem map_after_nestedGuards (n : Nat) (stmts : List Tree) :
    (nestedGuards n stmts).map (after wrapNode) = nestedGuards n (stmts.map (after wrapNode)) := by
  induction n with
  | zero => rfl
  | succ n ih =>
    simp only [nestedGuards, List.map_cons, List.map_nil, rewrite_wrapNode.after_guardedBody, ih]

theorem isPropsOnly_map_iterate (n : Nat) (params : List Tree) :
    isPropsOnly (params.map (after wrapNode)^[n]) = isPropsOnly params := by
  induction n with
  | zero => exact congrArg isPropsOnly (List.map_id params)
  | succ n ih =>
    rw [Function.iterate_succ', ← List.map_map, rewrite_wrapNode.isPropsOnly_map, ih]

theorem iterate_after_returned (n : Nat) (t : Tree) :
    (after wrapNode)^[n] (returned t) = returned ((after wrapNode)^[n] t) := by
  induction n with
  | zero => rfl
  | succ n ih =>
    rw [Function.iterate_succ_apply', ih, rewrite_wrapNode.after_returned,
      Function.iterate_succ_apply']

/-- Each round adds a guard around the statements of a block and moves on what is in it. -/
theorem iterate_after_arrow_block (hp : isPropsOnly params = true) (n : Nat) (span : Span)
    (context : Nat) (stmts : List Tree) (attrs : List (String × Tree)) :
    (after wrapNode)^[n] (arrow params (block span context stmts) attrs) =
      arrow (params.map (after wrapNode)^[n])
        (block span context (nestedGuards n (stmts.map (after wrapNode)^[n])))
        (mapFields (after wrapNode)^[n] attrs) := by
  induction n with
  | zero =>
    rw [Function.iterate_zero, List.map_id, List.map_id, mapFields_id]
    rfl
  | succ n ih =>
    have hp' : isPropsOnly (params.map (after wrapNode)^[n]) = true :=
      (isPropsOnly_map_iterate n params).trans hp
    have hblock : ∀ inner, (block span context inner).after wrapNode =
        block span context (inner.map (after wrapNode)) :=
      fun _ => rewrite_wrapNode.after_elsewhere rfl
    rw [Function.iterate_succ_apply', ih, after_wrapNode_arrow, if_pos hp', hblock,
      map_after_nestedGuards, List.map_map, List.map_map, mapFields_mapFields,
      ← Function.iterate_succ']
    rfl

/-- The first round makes a block of an expression, the same as of a block that returns it. -/
theorem iterate_after_arrow_expression (hp : isPropsOnly params = true)
    (hb : body.blockSpan? = none) (n : Nat) (attrs : List (String × Tree)) :
    (after wrapNode)^[n + 1] (arrow params body attrs) =
      arrow (params.map (after wrapNode)^[n + 1])
        (block .dummy 0 (nestedGuards (n + 1) [returned ((after wrapNode)^[n + 1] body)]))
        (mapFields (after wrapNode)^[n + 1] attrs) := by
  have hfirst : (arrow params body attrs).after wrapNode =
      (arrow params (block .dummy 0 [returned body]) attrs).after wrapNode := by
    rw [after_wrapNode_arrow, after_wrapNode_arrow, if_pos hp, if_pos hp,
      ← rewrite_wrapNode.after_guardBody, ← rewrite_wrapNode.after_guardBody,
      guardBody_of_blockSpan?_eq_none hb]
    rfl
  rw [Function.iterate_succ_apply, hfirst, ← Function.iterate_succ_apply,
    iterate_after_arrow_block hp, List.map_singleton, iterate_after_returned]

theorem iterate_after_arrow_of_not_isPropsOnly (hp : isPropsOnly params = false) (n : Nat)
    (body : Tree) (attrs : List (String × Tree)) :
    (after wrapNode)^[n] (arrow params body attrs) =
      arrow (params.map (after wrapNode)^[n]) ((after wrapNode)^[n] body)
        (mapFields (after wrapNode)^[n] attrs) := by
  induction n with
  | zero =>
    rw [Function.iterate_zero, List.map_id, mapFields_id]
    rfl
  | succ n ih =>
    have hp' : isPropsOnly (params.map (after wrapNode)^[n]) = false :=
      (isPropsOnly_map_iterate n params).trans hp
    rw [Function.iterate_succ_apply', ih, after_wrapNode_arrow, hp', List.map_map,
      mapFields_mapFields, ← Function.iterate_succ', Function.iterate_succ_apply' _ n body]
    rfl

end Tree

namespace Program

open RenderGuard.Tree

variable {p : Program} {t : Tree} {a : Path}

/-- Where a path leads after wrapping `n` times. -/
def relocateTimes (p : Program) : Nat → Path → Path
  | 0, a => a
  | n + 1, a => (p.wrapTimes n).root.relocate .plain (p.relocateTimes n a)

theorem relocateTimes_injective (p : Program) (n : Nat) :
    Function.Injective (p.relocateTimes n) := by
  induction n with
  | zero => exact Function.injective_id
  | succ n ih => exact (relocate_injective .plain (p.wrapTimes n).root).comp ih

/-- A class or an arrow goes its way alone: in the end it is what the rounds make of it. -/
theorem at?_relocateTimes (hs : t.isSite = true) (h : p.root.at? a = some t) (n : Nat) :
    (p.wrapTimes n).root.at? (p.relocateTimes n a) = some ((after wrapNode)^[n] t) := by
  induction n with
  | zero => exact h
  | succ n ih =>
    have hsite : ((after wrapNode)^[n] t).isSite = true :=
      (eq_iterate_after rewrite_wrapNode.isSite_after n t).trans hs
    rw [wrapTimes_succ, root_wrap, Function.iterate_succ_apply', ← placed_of_isSite hsite]
    exact at?_relocate .plain ih

/-- In `n` rounds each arrow component gets `n` guards around its statements, one inside the other,
and no other arrow gets any. No two arrows come to stand at one place. -/
theorem one_guard_for_each_round (p : Program) (n : Nat) :
    Function.Injective (p.relocateTimes n) ∧
    ∀ a params body attrs, p.root.at? a = some (arrow params body attrs) →
      ∃ body', (p.wrapTimes n).root.at? (p.relocateTimes n a) =
          some (arrow (params.map (after wrapNode)^[n]) body'
            (mapFields (after wrapNode)^[n] attrs)) ∧
        leaves (mapFields (after wrapNode)^[n] attrs) = leaves attrs ∧
        (isPropsOnly params = true →
          (∀ span context stmts, body = block span context stmts →
            body' = block span context (nestedGuards n (stmts.map (after wrapNode)^[n]))) ∧
          (body.blockSpan? = none → 1 ≤ n →
            body' = block .dummy 0 (nestedGuards n [returned ((after wrapNode)^[n] body)]))) ∧
        (isPropsOnly params = false →
          body' = (after wrapNode)^[n] body ∧ body'.kind = body.kind ∧
          (wrapNode (arrow (params.map (after wrapNode)^[n]) body'
            (mapFields (after wrapNode)^[n] attrs))).wrapped = false) := by
  refine ⟨relocateTimes_injective p n, ?_⟩
  intro a params body attrs h
  have hplace := at?_relocateTimes rfl h n
  have hleaves : leaves (mapFields (after wrapNode)^[n] attrs) = leaves attrs := by
    have hleaf := eq_iterate_after rewrite_wrapNode.leaf?_after n
    simp only [leaves, mapFields, List.filterMap_map, Function.comp_def, hleaf]
  cases hp : isPropsOnly params with
  | true =>
    cases hb : body.blockSpan? with
    | some span =>
      obtain ⟨context, stmts, rfl⟩ : ∃ context stmts, body = block span context stmts := by
        cases body <;> simp_all [blockSpan?]
      rw [iterate_after_arrow_block hp] at hplace
      refine ⟨_, hplace, hleaves, fun _ => ⟨?_, by simp⟩, by simp⟩
      rintro _ _ _ ⟨⟩
      rfl
    | none =>
      have hnot : ∀ span context stmts, body ≠ block span context stmts := by
        rintro _ _ _ rfl
        cases hb
      cases n with
      | zero =>
        refine ⟨body, ?_, hleaves, fun _ => ⟨?_, by simp⟩, by simp⟩
        · rw [Function.iterate_zero, List.map_id, mapFields_id]
          exact hplace
        · exact fun _ _ _ he => absurd he (hnot _ _ _)
      | succ n =>
        rw [iterate_after_arrow_expression hp hb] at hplace
        exact ⟨_, hplace, hleaves, fun _ =>
          ⟨fun _ _ _ he => absurd he (hnot _ _ _), fun _ _ => rfl⟩, by simp⟩
  | false =>
    have hkind : ((after wrapNode)^[n] body).kind = body.kind :=
      eq_iterate_after rewrite_wrapNode.kind_after n body
    rw [iterate_after_arrow_of_not_isPropsOnly hp] at hplace
    refine ⟨_, hplace, hleaves, by simp, fun _ => ⟨rfl, hkind, ?_⟩⟩
    rw [wrapNode_arrow, wrapped_wrapArrow]
    exact (isPropsOnly_map_iterate n params).trans hp

/-- After two rounds the class that the outer arrow returns is inside two guards, and so is the
empty block of the inner arrow. -/
theorem one_guard_for_each_round_sample :
    (∃ params expression attrs, sample.root.at? [.item 1, .expression] =
        some (arrow params expression attrs) ∧
      ∃ params' attrs',
        (sample.wrapTimes 2).root.at? (sample.relocateTimes 2 [.item 1, .expression]) =
        some (arrow params' (block .dummy 0 [guardedBody
          [guardedBody [returned ((after wrapNode)^[2] expression)]]]) attrs')) ∧
    ∃ params attrs,
      sample.root.at? innerArrowPath = some (arrow params (block ⟨70, 72⟩ 0 []) attrs) ∧
      ∃ params' attrs', (sample.wrapTimes 2).root.at? (sample.relocateTimes 2 innerArrowPath) =
        some (arrow params' (block ⟨70, 72⟩ 0 [guardedBody [guardedBody []]]) attrs') := by
  obtain ⟨_, hrounds⟩ := one_guard_for_each_round sample 2
  refine ⟨⟨_, _, _, rfl, ?_⟩, ⟨_, _, rfl, ?_⟩⟩
  · obtain ⟨body', hplace, _, hprops, _⟩ := hrounds [.item 1, .expression] _ _ _ rfl
    rw [(hprops rfl).2 rfl (by decide)] at hplace
    exact ⟨_, _, hplace⟩
  · obtain ⟨body', hplace, _, hprops, _⟩ := hrounds innerArrowPath _ _ _ rfl
    rw [(hprops rfl).1 _ _ _ rfl] at hplace
    exact ⟨_, _, hplace⟩

end Program

end RenderGuard
