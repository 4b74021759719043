import Mathlib.Tactic.TFAE
import RenderGuard.Proofs.Binding
import RenderGuard.Proofs.Coverage

/-! When a run changes a program. Each component that it wraps adds one call of the handler. -/
namespace RenderGuard

open Component Fragment Traced

namespace Tree

variable {f : Tree → Traced Tree} {t : Tree}

/-- Whether a node calls what the handler is bound to. -/
def callsHandler : Tree → Bool
  | node kind fields =>
    kind == "CallExpression" && (fields.lookup "callee").bind identifierName? == some handlerName
  | _ => false

/-- How often a tree calls the handler. -/
def handlerCalls (t : Tree) : Nat := t.nodes.countP callsHandler

def handlerCallsAll : List Tree → Nat
  | [] => 0
  | t :: ts => t.handlerCalls + handlerCallsAll ts

theorem handlerCallsAll_eq (ts : List Tree) :
    handlerCallsAll ts = (ts.flatMap nodes).countP callsHandler := by
  induction ts with
  | nil => rfl
  | cons t ts ih => rw [handlerCallsAll, List.flatMap_cons, List.countP_append, ih, handlerCalls]

theorem handlerCallsAll_append (ts us : List Tree) :
    handlerCallsAll (ts ++ us) = handlerCallsAll ts + handlerCallsAll us := by
  simp only [handlerCallsAll_eq, List.flatMap_append, List.countP_append]

theorem handlerCalls_eq (t : Tree) :
    t.handlerCalls = handlerCallsAll t.children + if t.callsHandler then 1 else 0 := by
  rw [handlerCalls, nodes_eq, List.countP_cons, handlerCallsAll_eq]

theorem handlerCalls_block (span : Span) (context : Nat) (stmts : List Tree) :
    (block span context stmts).handlerCalls = handlerCallsAll stmts := handlerCalls_eq _

theorem handlerCalls_guardedBody (stmts : List Tree) :
    (guardedBody stmts).handlerCalls = handlerCallsAll stmts + 1 := by
  have hclause : (node "CatchClause" [unspanned, ("param", binder "e"), ("body", block .dummy 0
      [returned (call (variableIn 0 handlerName) [variableIn 0 "e"])])]).handlerCalls = 1 := by
    decide
  have hspan : unspanned.2.handlerCalls = 0 := rfl
  have habsent : absent.handlerCalls = 0 := rfl
  rw [handlerCalls_eq]
  simp [guardedBody, guarded, children, handlerCallsAll, callsHandler, hclause, hspan, habsent,
    handlerCalls_block]

theorem handlerCalls_returned (t : Tree) : (returned t).handlerCalls = t.handlerCalls := by
  have hspan : unspanned.2.handlerCalls = 0 := rfl
  rw [handlerCalls_eq]
  simp [returned, children, handlerCallsAll, callsHandler, hspan]

theorem handlerCalls_guardBody (body : Tree) :
    (guardBody body).handlerCalls = body.handlerCalls + 1 := by
  cases hb : body.blockSpan? with
  | some span =>
    cases body <;> simp_all [blockSpan?, guardBody, handlerCallsAll, handlerCalls_block,
      handlerCalls_guardedBody]
  | none =>
    rw [guardBody_of_blockSpan?_eq_none hb]
    simp [handlerCallsAll, handlerCalls_block, handlerCalls_guardedBody, handlerCalls_returned]

theorem handlerCalls_renamed (name : String) (m : Tree) :
    (renamed name m).handlerCalls = m.handlerCalls := by
  cases m with
  | method key isStatic function attrs =>
    cases key with
    | identifier old nameAttrs =>
      have hkey : (identifier name nameAttrs).handlerCalls =
          (identifier old nameAttrs).handlerCalls := by
        rw [handlerCalls_eq, handlerCalls_eq (identifier old nameAttrs)]
        rfl
      rw [renamed, handlerCalls_eq, handlerCalls_eq (method _ _ _ _)]
      simp only [children, handlerCallsAll, hkey]
      rfl
    | _ => rfl
  | _ => rfl

theorem handlerCallsAll_modify_renamed (name : String) (i : Nat) (members : List Tree) :
    handlerCallsAll (members.modify i (renamed name)) = handlerCallsAll members := by
  induction members generalizing i with
  | nil => cases i <;> rfl
  | cons m members ih =>
    cases i with
    | zero => simp only [List.modify_zero_cons, handlerCallsAll, handlerCalls_renamed]
    | succ i => simp only [List.modify_succ_cons, handlerCallsAll, ih]

theorem handlerCallsAll_guardMembers (i : Nat) (members : List Tree) :
    handlerCallsAll (guardMembers i members) = handlerCallsAll members + 1 := by
  have hnew : delegatingRender.handlerCalls = 1 := by decide
  rw [guardMembers, handlerCallsAll, hnew, handlerCallsAll_modify_renamed, Nat.add_comm]

/-- A step that wraps a node adds one call of the handler, any other step none. -/
theorem handlerCalls_wrapNode (t : Tree) : (wrapNode t).value.handlerCalls =
    t.handlerCalls + if (wrapNode t).wrapped then 1 else 0 := by
  cases t with
  | classDef form name superClass members attrs =>
    rw [wrapNode_classDef]
    rcases wrapClass_cases form name superClass members attrs with
      ⟨_, _, he⟩ | ⟨_, _, i, _, he⟩ | ⟨_, he⟩
    · rw [he]
      rfl
    · rw [he, handlerCalls_eq, handlerCalls_eq (classDef _ _ _ _ _)]
      simp only [children, List.cons_append, handlerCallsAll, handlerCallsAll_append,
        handlerCallsAll_guardMembers, callsHandler, Bool.false_eq_true, if_false, if_true]
      omega
    · rw [he]
      rfl
  | arrow params body attrs =>
    rw [wrapNode_arrow]
    rcases wrapArrow_cases params body attrs with ⟨_, he⟩ | ⟨_, he⟩
    · rw [he, handlerCalls_eq, handlerCalls_eq (arrow _ _ _)]
      simp only [children, handlerCallsAll, handlerCallsAll_append, handlerCalls_guardBody,
        callsHandler, Bool.false_eq_true, if_false, if_true]
      omega
    · rw [he]
      rfl
  | _ => rfl

theorem lookup_mapFields (g : Tree → Tree) (name : String) (fields : List (String × Tree)) :
    (mapFields g fields).lookup name = (fields.lookup name).map g := by
  induction fields with
  | nil => rfl
  | cons field rest ih =>
    obtain ⟨key, t⟩ := field
    change ((key, g t) :: mapFields g rest).lookup name = (((key, t) :: rest).lookup name).map g
    rw [List.lookup_cons, List.lookup_cons, ih]
    split <;> rfl

theorem LocalPass.callsHandler_mapChildren (h : LocalPass f) (t : Tree) :
    (t.mapChildren (after f)).callsHandler = t.callsHandler := by
  cases t with
  | node kind fields =>
    have hcallee : ((mapFields (after f) fields).lookup "callee").bind identifierName? =
        (fields.lookup "callee").bind identifierName? := by
      rw [lookup_mapFields]
      cases fields.lookup "callee" with
      | none => rfl
      | some callee => exact h.identifierName?_after callee
    simp only [mapChildren, callsHandler, hcallee]
  | _ => rfl

theorem handlerCallsAll_map_after {ts : List Tree}
    (h : ∀ t ∈ ts, (t.after wrapNode).handlerCalls =
      t.handlerCalls + t.nodes.countP fun n => (wrapNode n).wrapped) :
    handlerCallsAll (ts.map (after wrapNode)) =
      handlerCallsAll ts + (ts.flatMap nodes).countP fun n => (wrapNode n).wrapped := by
  induction ts with
  | nil => rfl
  | cons t ts ih =>
    obtain ⟨ht, hts⟩ := List.forall_mem_cons.1 h
    rw [List.map_cons, handlerCallsAll, ht, ih hts, handlerCallsAll, List.flatMap_cons,
      List.countP_append]
    omega

/-- Wrapping a tree adds one call of the handler for each node that is wrapped. -/
theorem handlerCalls_after (t : Tree) : (t.after wrapNode).handlerCalls =
    t.handlerCalls + t.nodes.countP fun n => (wrapNode n).wrapped := by
  induction t using inductionOnChildren with
  | step t ih =>
    have hpass : LocalPass wrapNode := rewrite_wrapNode.toLocalPass
    have hchildren : (t.mapChildren (after wrapNode)).handlerCalls =
        t.handlerCalls + (t.children.flatMap nodes).countP fun n => (wrapNode n).wrapped := by
      rw [handlerCalls_eq, children_mapChildren, handlerCallsAll_map_after ih,
        hpass.callsHandler_mapChildren, handlerCalls_eq t]
      omega
    rw [after_eq, handlerCalls_wrapNode, hchildren, rewrite_wrapNode.wrapped_mapChildren hpass,
      nodes_eq t, List.countP_cons]
    omega

/-- A component without a guard: an arrow component, or a class component with a render and no sign
that it is wrapped. -/
def isUnguarded : Tree → Bool
  | arrow params _ _ => isPropsOnly params
  | classDef _ _ superClass members _ =>
    isBase superClass && members.any (isNamed renderName) && !members.any isMarker
  | _ => false

theorem wrapped_wrapNode_eq (t : Tree) : (wrapNode t).wrapped = t.isUnguarded := by
  cases t with
  | classDef form name superClass members attrs =>
    rw [wrapNode_classDef]
    exact wrapped_wrapClass form name superClass members attrs
  | arrow params body attrs =>
    rw [wrapNode_arrow]
    exact wrapped_wrapArrow (arrow params body attrs)
  | _ => rfl

end Tree

namespace Program

open RenderGuard.Tree

variable {p : Program} {options : Options}

theorem wrapped_wrap_iff (p : Program) :
    p.wrap.wrapped = true ↔ ∃ t ∈ p.nodes, t.isUnguarded = true := by
  rw [wrap_eq_pass, wrapped_pass_eq rewrite_wrapNode, List.any_eq_true]
  simp only [wrapped_wrapNode_eq]

theorem countP_callsHandler_wrap (p : Program) :
    p.wrap.value.nodes.countP callsHandler =
      p.nodes.countP callsHandler + p.nodes.countP isUnguarded := by
  have hitems := handlerCallsAll_map_after fun t (_ : t ∈ p.body) => handlerCalls_after t
  simp only [wrapped_wrapNode_eq, handlerCallsAll_eq] at hitems
  rw [wrap_eq_pass, value_pass]
  exact hitems

theorem wrap_ne_self (h : p.wrap.wrapped = true) : p.wrap.value ≠ p := by
  intro he
  have hcalls := countP_callsHandler_wrap p
  have hpos : 0 < p.nodes.countP isUnguarded :=
    List.countP_pos_iff.2 ((wrapped_wrap_iff p).1 h)
  rw [he] at hcalls
  omega

/-- A program with an unguarded component changes, needs a handler and says so. Any other comes back
as it is from every kind of run, whatever the options. -/
theorem change_record_and_errors_agree (p : Program) (context : Nat) :
    [∃ t ∈ p.nodes, t.isUnguarded = true,
      p.wrap.value ≠ p,
      p.wrap.wrapped = true,
      ∀ options, options.handler? = none → (p.transform options).value = .error .missing,
      (p.compile none context).value.diagnostics = [⟨HandlerError.missing.message, p.span⟩]].TFAE ∧
    ((∀ t ∈ p.nodes, t.isUnguarded = false) → ∀ options text?,
      (p.transform options).value = .ok p ∧
      (p.apply options context).value = ⟨p, .ok false⟩ ∧
      (p.compile text? context).value = ⟨p, []⟩) := by
  constructor
  · tfae_have 1 ↔ 3 := (wrapped_wrap_iff p).symm
    tfae_have 3 → 2 := wrap_ne_self
    tfae_have 2 → 3 := by
      intro hne
      by_contra hw
      exact hne (wrap_eq_self (by simpa using hw))
    tfae_have 3 → 4 := by
      intro hw options ho
      rw [transform_eq, if_pos ⟨hw, ho⟩]
    tfae_have 4 → 3 := by
      intro hfails
      by_contra hw
      have h := hfails Options.unset rfl
      rw [transform_eq, if_neg fun hn => hw hn.1] at h
      cases h
    tfae_have 3 ↔ 5 := by
      rw [compile_eq]
      by_cases hw : p.wrap.wrapped = true
      · exact iff_of_true hw (if_pos ⟨hw, rfl⟩)
      · rw [if_neg fun hn => hw hn.1]
        exact iff_of_false hw (List.cons_ne_nil _ _).symm
    tfae_finish
  · intro hnone options text?
    have hw : p.wrap.wrapped = false := by
      by_contra h
      obtain ⟨t, ht, hu⟩ := (wrapped_wrap_iff p).1 (by simpa using h)
      simp [hnone t ht] at hu
    refine ⟨?_, apply_of_wrapped_eq_false hw options context, ?_⟩
    · rw [transform_eq, if_neg (by simp [hw]), apply_of_wrapped_eq_false hw]
    · rw [compile_eq, if_neg (by simp [hw]), apply_of_wrapped_eq_false hw]

theorem change_record_and_errors_agree_sample :
    (∀ t ∈ classSample.wrap.value.nodes, t.isUnguarded = false) ∧
    (classSample.wrap.value.compile (some "not readable") 1).value =
      ⟨classSample.wrap.value, []⟩ := by
  have hnone : classSample.wrap.value.nodes.all (fun t => !t.isUnguarded) = true := by
    decide +kernel
  have hguarded : ∀ t ∈ classSample.wrap.value.nodes, t.isUnguarded = false := by
    simpa using hnone
  exact ⟨hguarded,
    ((change_record_and_errors_agree _ 1).2 hguarded Options.unset (some "not readable")).2.2⟩

end Program

end RenderGuard
