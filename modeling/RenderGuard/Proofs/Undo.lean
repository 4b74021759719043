import RenderGuard.Proofs.Binding
import RenderGuard.Proofs.Coverage

/-! The transform loses nothing: what it did shows in its result and can be taken back. -/
namespace RenderGuard

open Component Fragment Traced

namespace Tree

variable {f : Tree → Traced Tree} {t u m body : Tree} {members : List Tree} {i : Nat}

/-- The member under the name it had, if wrapping gave it another. -/
def restored (m : Tree) : Tree := if isNamed marker m then renamed renderName m else m

/-- The members without the new render. -/
def unguardMembers (members : List Tree) : List Tree := members.tail.map restored

def guardedStmts : Tree → List Tree
  | node _ (_ :: (_, block _ _ stmts) :: _) => stmts
  | _ => []

def returnedValue : Tree → Tree
  | node _ [_, (_, value)] => value
  | statement => statement

/-- The body without the guard. A block that stands for no source text is none of the program's
own: then the body was an expression. -/
def unguardBody : Tree → Tree
  | block span context [statement] =>
    match decide (span = .dummy), guardedStmts statement with
    | true, [returning] => returnedValue returning
    | _, stmts => block span context stmts
  | body => body

def unwrapClass : Tree → Tree
  | classDef form name superClass members attrs =>
    if isBase superClass && members.any isMarker then
      classDef form name superClass (unguardMembers members) attrs
    else
      classDef form name superClass members attrs
  | t => t

def unwrapArrow : Tree → Tree
  | arrow params body attrs =>
    if isPropsOnly params then arrow params (unguardBody body) attrs
    else arrow params body attrs
  | t => t

def unwrapNode (t : Tree) : Traced Tree := pure (unwrapArrow (unwrapClass t))

/-- The tree without any wrapping in it. -/
def unwrap (t : Tree) : Tree := t.after unwrapNode

/-- Whether a node is as it is before any wrapping: a class component has no marker, and a block
that an arrow component runs stands for source text. -/
def isFresh : Tree → Bool
  | classDef _ _ superClass members _ => !(isBase superClass && members.any isMarker)
  | arrow params body _ => !(isPropsOnly params && body.blockSpan? == some .dummy)
  | _ => true

theorem restored_of_isMarker_eq_false (h : isMarker m = false) : restored m = m := by
  simp_all [isMarker, restored]

theorem restored_renamed (h : isNamed renderName m = true) :
    restored (renamed marker m) = m := by
  cases m with
  | method key isStatic function attrs =>
    cases key <;> simp_all [isNamed, renamed, restored]
  | _ => simp [isNamed] at h

theorem unguardMembers_guardMembers (hi : lastIndex? (isNamed renderName) members = some i)
    (hm : members.any isMarker = false) : unguardMembers (guardMembers i members) = members := by
  obtain ⟨m, hget, hn⟩ := exists_of_lastIndex? hi
  apply List.ext_getElem?
  intro j
  rw [unguardMembers, guardMembers, List.tail_cons, List.getElem?_map, List.getElem?_modify]
  by_cases hj : i = j
  · subst hj
    simp [hget, restored_renamed hn]
  · cases hmj : members[j]? with
    | none => rfl
    | some a =>
      have ha : isMarker a = false := by
        simpa using List.any_eq_false.1 hm a (List.mem_of_getElem? hmj)
      simp [hj, restored_of_isMarker_eq_false ha]

theorem unguardBody_guardBody (h : body.blockSpan? ≠ some .dummy) :
    unguardBody (guardBody body) = body := by
  cases hb : body.blockSpan? with
  | some span =>
    cases body with
    | block span' context stmts =>
      have hs : span' ≠ .dummy := fun he => h (congrArg some he)
      simp [guardBody, unguardBody, hs, guardedStmts, guardedBody, guarded]
    | _ => cases hb
  | none =>
    rw [guardBody_of_blockSpan?_eq_none hb]
    rfl

theorem unwrapNode_wrapNode (h : u.isFresh = true) :
    (wrapNode u >>= unwrapNode).value = u := by
  cases u with
  | classDef form name superClass members attrs =>
    rw [wrapNode_classDef]
    rcases wrapClass_cases form name superClass members attrs with
      ⟨hb, hm, he⟩ | ⟨hb, hm, i, hi, he⟩ | ⟨hn, he⟩
    · simp [isFresh, hb, hm] at h
    · simp [he, unwrapNode, unwrapClass, unwrapArrow, hb, any_isMarker_guardMembers hi,
        unguardMembers_guardMembers hi hm]
    · have hc : (isBase superClass && members.any isMarker) = false := by
        rw [← Bool.not_eq_true']
        exact h
      simp only [he, pure_bind, unwrapNode, value_pure, unwrapClass, hc]
      rfl
  | arrow params body attrs =>
    rw [wrapNode_arrow]
    rcases wrapArrow_cases params body attrs with ⟨hp, he⟩ | ⟨hp, he⟩
    · have hs : body.blockSpan? ≠ some .dummy := by
        simpa [isFresh, hp] using h
      simp [he, unwrapNode, unwrapClass, unwrapArrow, hp, unguardBody_guardBody hs]
    · simp [he, unwrapNode, unwrapClass, unwrapArrow, hp]
  | _ => rfl

theorem localPass_unwrapNode : LocalPass unwrapNode where
  elsewhere {t} ht := by
    cases t <;> simp_all [isSite, unwrapNode, unwrapClass, unwrapArrow]
  atArrow params body attrs := by
    simp only [unwrapNode, unwrapClass, unwrapArrow, value_pure]
    split
    · exact ⟨_, rfl⟩
    · exact ⟨_, rfl⟩
  atClass form name superClass members attrs := by
    simp only [unwrapNode, unwrapClass, value_pure]
    split
    · exact ⟨_, rfl⟩
    · exact ⟨_, rfl⟩

/-- The two walks are one walk, whose step changes no fresh node. -/
theorem unwrap_after (h : ∀ n ∈ t.nodes, n.isFresh = true) : (t.after wrapNode).unwrap = t := by
  rw [unwrap, rewrite_wrapNode.after_after localPass_unwrapNode]
  exact after_eq_self fun n hn => unwrapNode_wrapNode (h n hn)

/-- Whether a node of a wrapped program was wrapped. -/
def showsWrapping : Tree → Bool
  | classDef _ _ superClass members _ => isBase superClass && members.any isMarker
  | arrow params _ _ => isPropsOnly params
  | _ => false

theorem isSite_of_showsWrapping (h : t.showsWrapping = true) : t.isSite = true := by
  cases t <;> simp_all [showsWrapping, isSite]

theorem isFresh_mapChildren (h : LocalPass f) (t : Tree) :
    (t.mapChildren (after f)).isFresh = t.isFresh := by
  cases t with
  | classDef form name superClass members attrs =>
    simp only [mapChildren, isFresh, h.isBase_after, List.any_map, Function.comp_def,
      h.isMarker_after]
  | arrow params body attrs =>
    simp only [mapChildren, isFresh, h.isPropsOnly_map, h.blockSpan?_after]
  | _ => rfl

theorem showsWrapping_wrapNode (h : u.isFresh = true) :
    (wrapNode u).value.showsWrapping = (wrapNode u).wrapped := by
  cases u with
  | classDef form name superClass members attrs =>
    rw [wrapNode_classDef]
    rcases wrapClass_cases form name superClass members attrs with
      ⟨hb, hm, he⟩ | ⟨hb, hm, i, hi, he⟩ | ⟨hn, he⟩
    · simp [isFresh, hb, hm] at h
    · simp [he, showsWrapping, hb, any_isMarker_guardMembers hi]
    · rw [he, wrapped_pure]
      rw [← Bool.not_eq_true']
      exact h
  | arrow params body attrs =>
    rw [wrapNode_arrow]
    rcases wrapArrow_cases params body attrs with ⟨hp, he⟩ | ⟨hp, he⟩
    · rw [he]
      exact hp
    · rw [he]
      exact hp
  | _ => rfl

theorem showsWrapping_after (h : t.isFresh = true) :
    (t.after wrapNode).showsWrapping = (wrapNode t).wrapped := by
  have hu : (t.mapChildren (after wrapNode)).isFresh = true := by
    rw [isFresh_mapChildren rewrite_wrapNode.toLocalPass, h]
  rw [after_eq, showsWrapping_wrapNode hu,
    rewrite_wrapNode.wrapped_mapChildren rewrite_wrapNode.toLocalPass]

end Tree

namespace Program

open RenderGuard.Tree

variable {p q : Program} {options : Options} {new : List Tree}

/-- The program before it was transformed. -/
def undo (q : Program) : Program :=
  { q with
    body := (if q.nodes.any showsWrapping then q.directives ++ q.items.tail else q.body).map
      unwrap }

/-- Whether a program was changed can be read off the result, with or without the binding. -/
theorem any_showsWrapping (hp : ∀ t ∈ p.nodes, t.isFresh = true)
    (hnew : ∀ t ∈ new, t.sites = []) :
    (p.wrap.value.insertAll new).nodes.any showsWrapping = p.wrap.wrapped := by
  have hshows : ∀ t ∈ p.sites, (t.after wrapNode).showsWrapping = (wrapNode t).wrapped :=
    fun t ht => showsWrapping_after (hp t (mem_sites.1 ht).1)
  calc (p.wrap.value.insertAll new).nodes.any showsWrapping
    _ = (p.wrap.value.insertAll new).sites.any showsWrapping :=
      any_nodes_eq (fun _ => isSite_of_showsWrapping) _
    _ = (p.sites.map (after wrapNode)).any showsWrapping := by
      rw [sites_insertAll hnew, wrap_eq_pass, sites_pass rewrite_wrapNode]
    _ = p.sites.any fun t => (wrapNode t).wrapped := by
      rw [List.any_map]
      exact any_congr_of_mem hshows
    _ = p.wrap.wrapped := (wrapped_wrap_eq p).symm

theorem unwrap_wrap (hp : ∀ t ∈ p.nodes, t.isFresh = true) :
    { p.wrap.value with body := p.wrap.value.body.map unwrap } = p := by
  have hitem : ∀ t ∈ p.body, (unwrap ∘ after wrapNode) t = id t := by
    intro t ht
    exact unwrap_after fun n hn => hp n (List.mem_flatMap.2 ⟨t, ht, hn⟩)
  have hbody : (p.body.map (after wrapNode)).map unwrap = p.body := by
    rw [List.map_map, List.map_congr_left hitem, List.map_id]
  rw [wrap_eq_pass, value_pass, hbody]

/-- A transformed program is the wrapped one, with the binding exactly if something was wrapped. -/
theorem transform_ok_cases (h : (p.transform options).value = .ok q) :
    (p.wrap.wrapped = false ∧ q = p.wrap.value.insertAll []) ∨
    (p.wrap.wrapped = true ∧ ∃ specifier, options.handler? = some specifier ∧
      q = p.wrap.value.insertAll [binding specifier 0]) := by
  rw [transform_eq, (apply_cases p options 0).1, bindingItem?] at h
  cases hw : p.wrap.wrapped with
  | false =>
    simp only [hw] at h
    cases h
    exact Or.inl ⟨rfl, rfl⟩
  | true =>
    cases hs : options.handler? with
    | none =>
      simp only [hw, hs] at h
      cases h
    | some specifier =>
      simp only [hw, hs] at h
      cases h
      exact Or.inr ⟨rfl, specifier, rfl, rfl⟩

theorem undo_of_transform (hp : ∀ t ∈ p.nodes, t.isFresh = true)
    (h : (p.transform options).value = .ok q) : q.undo = p := by
  rcases transform_ok_cases h with ⟨hw, rfl⟩ | ⟨hw, specifier, _, rfl⟩
  · have hshows := any_showsWrapping hp (List.forall_mem_nil fun t : Tree => t.sites = [])
    rw [undo, hshows, hw, insertAll_nil]
    exact unwrap_wrap hp
  · have hsites : ∀ t ∈ [binding specifier 0], t.sites = [] :=
      List.forall_mem_singleton.2 (sites_binding specifier 0)
    have hd : ∀ t ∈ [binding specifier 0], isDirective t = false :=
      List.forall_mem_singleton.2 (isDirective_binding specifier 0)
    have hshows := any_showsWrapping hp hsites
    have hbody : p.wrap.value.directives ++ ([binding specifier 0] ++ p.wrap.value.items).tail =
        p.wrap.value.body := directives_append_items _
    rw [undo, hshows, hw, if_pos rfl, directives_insertAll hd, items_insertAll hd, hbody]
    exact unwrap_wrap hp

/-- The transform has a left inverse on programs that were not wrapped before, whatever the
options; so no two of them have the same result. -/
theorem undo_transform (options : Options) :
    (∀ p q : Program, (∀ t ∈ p.nodes, t.isFresh = true) →
      (p.transform options).value = .ok q → q.undo = p) ∧
    (∀ p p' q : Program, (∀ t ∈ p.nodes, t.isFresh = true) → (∀ t ∈ p'.nodes, t.isFresh = true) →
      (p.transform options).value = .ok q → (p'.transform options).value = .ok q → p = p') := by
  refine ⟨fun p q hp h => undo_of_transform hp h, ?_⟩
  intro p p' q hp hp' h h'
  rw [← undo_of_transform hp h, undo_of_transform hp' h']

theorem undo_transform_sample : ∃ q,
    (sample.transform ⟨some "./handler"⟩).value = .ok q ∧ q.undo = sample := by
  have hfresh : ∀ t ∈ sample.nodes, t.isFresh = true :=
    List.all_eq_true.1 (by decide : sample.nodes.all isFresh = true)
  have hok : (sample.transform ⟨some "./handler"⟩).value =
      .ok (sample.apply ⟨some "./handler"⟩ 0).value.program := rfl
  exact ⟨_, hok, (undo_transform _).1 sample _ hfresh hok⟩

end Program

end RenderGuard
