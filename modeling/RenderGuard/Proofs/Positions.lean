import RenderGuard.Proofs.Relocation

/-! The places in the source that nodes have, and the contexts that names are read in. -/
namespace RenderGuard

open Component Fragment Traced
open scoped List

namespace Tree

/-- The place in the source that a node has as a field, if it has one there. -/
def ownSpans : Tree → List Span
  | leaf (.span span) | block span _ _ => if span = .dummy then [] else [span]
  | _ => []

/-- The context that a node has as a field, unless it is empty. -/
def ownContexts : Tree → List Nat
  | leaf (.context context) | block _ context _ => if context = 0 then [] else [context]
  | _ => []

variable {α : Type} {read : Tree → List α}

/-- A reading of nodes that only finds what their own fields say, and nothing in added code. -/
structure ReadsFields (read : Tree → List α) : Prop extends SkipsBlanks read where
  site : ∀ t, t.isSite = true → read t = []
  mapChildren : ∀ g t, read (t.mapChildren g) = read t

theorem readsFields_ownSpans : ReadsFields ownSpans where
  blank t ht := by
    cases t with
    | leaf v => cases v <;> simp_all [isBlank, ownSpans]
    | _ => simp_all [isBlank, ownSpans]
  block _ _ _ := rfl
  site t ht := by cases t <;> simp_all [isSite, ownSpans]
  mapChildren g t := by cases t <;> rfl

theorem readsFields_ownContexts : ReadsFields ownContexts where
  blank t ht := by
    cases t with
    | leaf v => cases v <;> simp_all [isBlank, ownContexts]
    | _ => simp_all [isBlank, ownContexts]
  block _ _ _ := rfl
  site t ht := by cases t <;> simp_all [isSite, ownContexts]
  mapChildren g t := by cases t <;> rfl

namespace ReadsFields

/-- A step moves code about but neither loses nor doubles any of it. -/
theorem gather_wrapNode (h : ReadsFields read) (t : Tree) :
    (wrapNode t).value.gather read = t.gather read := by
  rcases value_wrapNode_cases t with
    ⟨form, name, superClass, members, attrs, i, rfl, _, he⟩ | ⟨params, body, attrs, rfl, _, he⟩ |
      ⟨_, _, he⟩
  · rw [he, gather_eq, gather_eq read (classDef _ _ _ _ _), h.site _ rfl, h.site _ rfl]
    simp only [children, List.cons_append, List.flatMap_cons, List.flatMap_append,
      h.flatMap_gather_guardMembers]
  · rw [he, gather_eq, gather_eq read (arrow _ _ _), h.site _ rfl, h.site _ rfl]
    simp only [children, List.flatMap_cons, List.flatMap_append, h.gather_guardBody]
  · rw [he]

theorem gather_after (h : ReadsFields read) (t : Tree) :
    (t.after wrapNode).gather read = t.gather read := by
  induction t using inductionOnChildren with
  | step t ih =>
    calc (t.after wrapNode).gather read
      _ = (t.mapChildren (after wrapNode)).gather read := by rw [after_eq, h.gather_wrapNode]
      _ = read t ++ t.children.flatMap fun c => (c.after wrapNode).gather read := by
        rw [gather_eq, h.mapChildren, children_mapChildren, List.flatMap_map]
      _ = read t ++ t.children.flatMap (gather read) := by rw [List.flatMap_congr ih]
      _ = t.gather read := (gather_eq read t).symm

end ReadsFields

theorem gather_ownSpans_binding (specifier : String) (n : Nat) :
    (binding specifier n).gather ownSpans = [] := rfl

theorem gather_ownContexts_binding (specifier : String) (n : Nat) :
    (binding specifier n).gather ownContexts = if n = 0 then [] else [n] := by
  cases n <;> rfl

end Tree

namespace Program

open RenderGuard.Tree

variable {α : Type} {read : Tree → List α} {p : Program}

/-- The places in the source of all nodes of a program and of the program itself. -/
def spans (p : Program) : List Span :=
  (if p.span = .dummy then [] else [p.span]) ++ p.nodes.flatMap ownSpans

/-- The contexts of all nodes of a program. -/
def contexts (p : Program) : List Nat := p.nodes.flatMap ownContexts

theorem flatMap_nodes (read : Tree → List α) (p : Program) :
    p.nodes.flatMap read = p.body.flatMap (gather read) := by
  rw [nodes, List.flatMap_assoc]
  rfl

theorem flatMap_nodes_wrap (h : ReadsFields read) (p : Program) :
    p.wrap.value.nodes.flatMap read = p.nodes.flatMap read := by
  rw [wrap_eq_pass, value_pass, flatMap_nodes, flatMap_nodes, List.flatMap_map,
    funext h.gather_after]

theorem flatMap_nodes_insert_perm (read : Tree → List α) (p : Program) (item : Tree) :
    (p.insert item).nodes.flatMap read ~ item.gather read ++ p.nodes.flatMap read := by
  rw [flatMap_nodes, flatMap_nodes, ← directives_append_items p, insert]
  simp only [List.flatMap_append, List.flatMap_cons]
  exact List.perm_append_comm_assoc _ _ _

theorem spans_wrap (p : Program) : p.wrap.value.spans = p.spans := by
  rw [spans, flatMap_nodes_wrap readsFields_ownSpans]
  rfl

theorem spans_insert_binding_perm (p : Program) (specifier : String) (n : Nat) :
    (p.insert (binding specifier n)).spans ~ p.spans := by
  have hnodes := flatMap_nodes_insert_perm ownSpans p (binding specifier n)
  rw [gather_ownSpans_binding, List.nil_append] at hnodes
  exact hnodes.append_left _

theorem contexts_wrap (p : Program) : p.wrap.value.contexts = p.contexts :=
  flatMap_nodes_wrap readsFields_ownContexts p

theorem contexts_insert_binding_perm (p : Program) (specifier : String) (n : Nat) :
    (p.insert (binding specifier n)).contexts ~ (if n = 0 then [] else [n]) ++ p.contexts := by
  rw [← gather_ownContexts_binding specifier n]
  exact flatMap_nodes_insert_perm ownContexts p (binding specifier n)

/-- A run neither loses nor doubles a place in the source or a context, also where it fails. A
binding may bring one context more, that of its `require`. -/
theorem places_and_contexts_stay (p : Program) (options : Options) (context : Nat) :
    (p.apply options context).value.program.spans.Perm p.spans ∧
    (((p.apply options context).value.result = .ok true ∧
        (∃ specifier, options.handler? = some specifier ∧
          (p.apply options context).value.program =
            p.wrap.value.insert (binding specifier context)) ∧
        (p.apply options context).value.program.contexts.Perm
          ((if context = 0 then [] else [context]) ++ p.contexts)) ∨
      ((p.apply options context).value.result ≠ .ok true ∧
        (p.apply options context).value.program = p.wrap.value ∧
        (p.apply options context).value.program.contexts.Perm p.contexts)) := by
  rcases apply_binds_or_not p options context with
    ⟨hok, specifier, hs, hprogram⟩ | ⟨hnot, hprogram⟩
  · rw [hprogram]
    refine ⟨?_, Or.inl ⟨hok, ⟨specifier, hs, rfl⟩, ?_⟩⟩
    · rw [← spans_wrap p]
      exact spans_insert_binding_perm _ specifier context
    · rw [← contexts_wrap p]
      exact contexts_insert_binding_perm _ specifier context
  · rw [hprogram, spans_wrap, contexts_wrap]
    exact ⟨.refl _, Or.inr ⟨hnot, rfl, .refl _⟩⟩

end Program

end RenderGuard
