import RenderGuard.Proofs.Programs

/-! No component escapes: arrow components run inside the guard and no class is left to wrap. -/
namespace RenderGuard

open Component Fragment Traced

namespace Tree

variable {f : Tree → Traced Tree} {t : Tree} {members params : List Tree}

theorem isNamed_renamed {old : String} {m : Tree} (name : String) (h : isNamed old m = true) :
    isNamed name (renamed name m) = true := by
  cases m with
  | method key isStatic function attrs =>
    cases key <;> simp_all [isNamed, renamed]
  | _ => simp [isNamed] at h

/-- The render that is looked up is there to be renamed, so that a wrapped class shows it. -/
theorem any_isMarker_guardMembers {i : Nat}
    (h : lastIndex? (isNamed renderName) members = some i) :
    (guardMembers i members).any isMarker = true := by
  obtain ⟨m, hm, hn⟩ := exists_of_lastIndex? h
  have hr : (members.modify i (renamed marker))[i]? = some (renamed marker m) := by
    rw [List.getElem?_modify_eq, hm]
    rfl
  rw [List.any_eq_true]
  refine ⟨renamed marker m, ?_, ?_⟩
  · exact List.mem_cons_of_mem _ (List.mem_of_getElem? hr)
  · simp [isMarker, isNamed_renamed marker hn]

/-- A class is wrapped if it is a component with a render and shows no sign of wrapping. -/
theorem wrapped_wrapClass (form : ClassForm) (name superClass : Tree) (members : List Tree)
    (attrs : List (String × Tree)) :
    (wrapClass (classDef form name superClass members attrs)).wrapped =
      (isBase superClass && members.any (isNamed renderName) && !members.any isMarker) := by
  rcases wrapClass_cases form name superClass members attrs with
    ⟨hb, hm, he⟩ | ⟨hb, hm, i, hi, he⟩ | ⟨hn, he⟩
  · simp [he, hm]
  · simp [he, hb, hm, any_eq_isSome_lastIndex?, hi]
  · cases hb : isBase superClass <;> simp_all

/-- What wrapping makes of a class is never wrapped again. -/
theorem wrapped_wrapClass_value (t : Tree) : (wrapClass (wrapClass t).value).wrapped = false := by
  cases t with
  | classDef form name superClass members attrs =>
    rcases wrapClass_cases form name superClass members attrs with
      ⟨hb, hm, he⟩ | ⟨hb, hm, i, hi, he⟩ | ⟨hn, he⟩
    · rw [he, he]
    · simp [he, wrapped_wrapClass, any_isMarker_guardMembers hi]
    · rw [he, value_pure, he, wrapped_pure]
  | _ => rfl

theorem wrapped_wrapClass_after (t : Tree) :
    (wrapClass (t.after wrapNode)).wrapped = false := by
  rw [after_eq]
  generalize t.mapChildren (after wrapNode) = u
  cases u with
  | classDef form name superClass members attrs =>
    rw [wrapNode_classDef, wrapped_wrapClass_value]
  | arrow params body attrs =>
    obtain ⟨body', he⟩ := rewrite_wrapNode.atArrow params body attrs
    rw [he]
    rfl
  | _ => rfl

theorem guardBody_eq_block (body : Tree) :
    ∃ span context stmts, guardBody body = block span context [guardedBody stmts] := by
  cases body <;> exact ⟨_, _, _, rfl⟩

theorem exists_guardedBody_of_after {body : Tree} {attrs : List (String × Tree)}
    (he : t.after wrapNode = arrow params body attrs) (hp : isPropsOnly params = true) :
    ∃ span context stmts, body = block span context [guardedBody stmts] := by
  rw [after_eq] at he
  revert he
  generalize t.mapChildren (after wrapNode) = u
  intro he
  cases u with
  | arrow params' body' attrs' =>
    rw [wrapNode_arrow] at he
    rcases wrapArrow_cases params' body' attrs' with ⟨_, hw⟩ | ⟨hn, hw⟩
    · rw [hw] at he
      cases he
      exact guardBody_eq_block body'
    · rw [hw] at he
      cases he
      simp [hp] at hn
  | classDef form name superClass members attrs' =>
    obtain ⟨members', hw⟩ := rewrite_wrapNode.atClass form name superClass members attrs'
    rw [hw] at he
    cases he
  | _ => cases he

def isClass : Tree → Bool
  | classDef .. => true
  | _ => false

def isComponentClass : Tree → Bool
  | classDef _ _ superClass _ _ => isBase superClass
  | _ => false

def isPropsArrow : Tree → Bool
  | arrow params _ _ => isPropsOnly params
  | _ => false

theorem events_wrapArrow (t : Tree) :
    (wrapArrow t).events = if t.isPropsArrow then [.wrappedArrow] else [] := by
  cases t with
  | arrow params body attrs =>
    rcases wrapArrow_cases params body attrs with ⟨hp, he⟩ | ⟨hp, he⟩
    · simp [he, isPropsArrow, hp]
    · simp [he, isPropsArrow, hp]
  | _ => rfl

theorem wrapped_wrapArrow (t : Tree) : (wrapArrow t).wrapped = t.isPropsArrow := by
  cases t with
  | arrow params body attrs =>
    rcases wrapArrow_cases params body attrs with ⟨hp, he⟩ | ⟨hp, he⟩
    · simp [he, isPropsArrow, hp]
    · simp [he, isPropsArrow, hp]
  | _ => rfl

theorem LocalPass.isClass_after (h : LocalPass f) (t : Tree) : (t.after f).isClass = t.isClass :=
  h.eq_after isClass (fun t => by cases t <;> rfl) (fun _ _ _ _ => rfl)
    (fun _ _ _ _ _ _ => rfl) t

theorem LocalPass.isComponentClass_after (h : LocalPass f) (t : Tree) :
    (t.after f).isComponentClass = t.isComponentClass := by
  apply h.eq_after isComponentClass
  · intro t
    cases t with
    | classDef form name superClass members attrs => exact h.isBase_after superClass
    | _ => rfl
  · intros
    rfl
  · intros
    rfl

theorem LocalPass.isPropsArrow_after (h : LocalPass f) (t : Tree) :
    (t.after f).isPropsArrow = t.isPropsArrow := by
  apply h.eq_after isPropsArrow
  · intro t
    cases t with
    | arrow params body attrs => exact h.isPropsOnly_map params
    | _ => rfl
  · intros
    rfl
  · intros
    rfl

theorem isSite_of_isClass (h : t.isClass = true) : t.isSite = true := by
  cases t <;> simp_all [isClass, isSite]

theorem isSite_of_isComponentClass (h : t.isComponentClass = true) : t.isSite = true := by
  cases t <;> simp_all [isComponentClass, isSite]

theorem isSite_of_isPropsArrow (h : t.isPropsArrow = true) : t.isSite = true := by
  cases t <;> simp_all [isPropsArrow, isSite]

end Tree

namespace Program

open RenderGuard.Tree

/-- In a wrapped program every arrow component runs inside the guard and every class component with
a render shows that it is wrapped. There are as many of each as before. -/
theorem no_component_escapes (p : Program) :
    (∀ params body attrs, arrow params body attrs ∈ p.wrap.value.nodes →
      isPropsOnly params = true →
      ∃ span context stmts, body = block span context [guardedBody stmts]) ∧
    (∀ form name superClass members attrs,
      classDef form name superClass members attrs ∈ p.wrap.value.nodes →
      isBase superClass = true → members.any (isNamed renderName) = true →
      members.any isMarker = true) ∧
    (∀ t ∈ p.wrap.value.nodes, t.wrapClass.wrapped = false) ∧
    p.wrap.value.nodes.countP isClass = p.nodes.countP isClass ∧
    p.wrap.value.nodes.countP isComponentClass = p.nodes.countP isComponentClass ∧
    p.wrap.value.nodes.countP isPropsArrow = p.nodes.countP isPropsArrow := by
  rw [wrap_eq_pass]
  have hsettled : ∀ t ∈ (p.pass wrapNode).value.nodes, t.wrapClass.wrapped = false := by
    intro t ht
    cases hs : t.isSite with
    | true =>
      obtain ⟨s, _, rfl⟩ := exists_of_mem_nodes_pass rewrite_wrapNode ht hs
      exact wrapped_wrapClass_after s
    | false => rw [localPass_wrapClass.elsewhere hs, Traced.wrapped_pure]
  refine ⟨?_, ?_, hsettled, ?_, ?_, ?_⟩
  · intro params body attrs hm hp
    obtain ⟨s, _, he⟩ := exists_of_mem_nodes_pass rewrite_wrapNode hm rfl
    exact exists_guardedBody_of_after he hp
  · intro form name superClass members attrs hm hb hr
    have hw := hsettled _ hm
    rw [wrapped_wrapClass, hb, hr] at hw
    simpa using hw
  · exact countP_nodes_pass rewrite_wrapNode (fun _ => isSite_of_isClass)
      rewrite_wrapNode.isClass_after p
  · exact countP_nodes_pass rewrite_wrapNode (fun _ => isSite_of_isComponentClass)
      rewrite_wrapNode.isComponentClass_after p
  · exact countP_nodes_pass rewrite_wrapNode (fun _ => isSite_of_isPropsArrow)
      rewrite_wrapNode.isPropsArrow_after p

theorem no_component_escapes_sample :
    (∃ params body attrs, arrow params body attrs ∈ sample.wrap.value.nodes ∧
      isPropsOnly params = true ∧
      ∃ span context stmts, body = block span context [guardedBody stmts]) ∧
    (∃ form name superClass members attrs,
      classDef form name superClass members attrs ∈ sample.wrap.value.nodes ∧
      members.any (isNamed renderName) = true ∧ members.any isMarker = true) ∧
    sample.wrap.value.nodes.countP isPropsArrow = 2 := by
  obtain ⟨harrow, hclass, _, _, _, hcount⟩ := no_component_escapes sample
  refine ⟨?_, ?_, ?_⟩
  · have hpos : 0 < sample.wrap.value.nodes.countP isPropsArrow := by
      rw [hcount]
      decide
    obtain ⟨t, hm, ht⟩ := List.countP_pos_iff.1 hpos
    cases t with
    | arrow params body attrs => exact ⟨params, body, attrs, hm, ht, harrow params body attrs hm ht⟩
    | _ => cases ht
  · have hany : sample.wrap.value.nodes.any
        (fun
          | classDef _ _ superClass members _ =>
            isBase superClass && members.any (isNamed renderName)
          | _ => false) = true := by
      decide +kernel
    obtain ⟨t, hm, ht⟩ := List.any_eq_true.1 hany
    cases t with
    | classDef form name superClass members attrs =>
      obtain ⟨hb, hr⟩ := (Bool.and_eq_true _ _).mp ht
      exact ⟨form, name, superClass, members, attrs, hm, hr, hclass _ _ _ _ _ hm hb hr⟩
    | _ => cases ht
  · rw [hcount]
    decide

end Program

end RenderGuard
