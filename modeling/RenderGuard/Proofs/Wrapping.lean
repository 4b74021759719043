import RenderGuard.Wrap
import RenderGuard.Proofs.Rewrite

/-! The two ways of wrapping are rewrites, apart and together. -/
namespace RenderGuard.Tree

open Component Fragment Traced

variable {f : Tree → Traced Tree} {name : String}

/-- A node that stands for nothing in the source and is neither a class nor an arrow. -/
def isBlank : Tree → Bool
  | leaf (.span s) => s == .dummy
  | leaf (.context n) => n == 0
  | block span context _ => span == .dummy && context == 0
  | arrow .. | classDef .. => false
  | _ => true

/-- A reading of nodes that finds nothing at blank ones, nor in what a block has for statements. All
code that wrapping adds is blank. -/
structure SkipsBlanks {α : Type} (read : Tree → List α) : Prop where
  blank : ∀ t, t.isBlank = true → read t = []
  block : ∀ span context stmts, read (block span context stmts) = read (block span context [])

theorem skipsBlanks_site : SkipsBlanks fun t => if t.isSite then [t] else [] where
  blank t ht := by cases t <;> simp_all [isBlank, isSite]
  block _ _ _ := rfl

theorem sites_eq_gather (t : Tree) : t.sites = t.gather fun n => if n.isSite then [n] else [] := by
  rw [gather, flatMap_ite_singleton isSite fun n => n, List.map_id', sites]

namespace SkipsBlanks

variable {α : Type} {read : Tree → List α}

theorem gather_eq_nil {t : Tree} (h : SkipsBlanks read) (ht : t.nodes.all isBlank = true) :
    t.gather read = [] := by
  rw [gather, List.flatMap_eq_nil_iff]
  intro n hn
  exact h.blank n (List.all_eq_true.1 ht n hn)

theorem gather_block (h : SkipsBlanks read) (span : Span) (context : Nat) (stmts : List Tree) :
    (Tree.block span context stmts).gather read =
      read (.block span context []) ++ stmts.flatMap (gather read) := by
  rw [gather_eq, h.block]
  rfl

theorem gather_guardedBody (h : SkipsBlanks read) (stmts : List Tree) :
    (guardedBody stmts).gather read = stmts.flatMap (gather read) := by
  have hclause : ∀ clause : Tree, clause.nodes.all isBlank = true → clause.gather read = [] :=
    fun _ => h.gather_eq_nil
  have hblock : (Tree.block .dummy 0 stmts).gather read = stmts.flatMap (gather read) := by
    rw [h.gather_block, h.blank _ rfl, List.nil_append]
  rw [gather_eq, h.blank _ rfl]
  simp only [guardedBody, guarded, children, List.map_cons, List.map_nil, List.flatMap_cons,
    List.flatMap_nil, hblock]
  rw [hclause unspanned.2 rfl, hclause (.node "CatchClause" _) rfl, hclause absent rfl]
  simp

theorem gather_returned (h : SkipsBlanks read) (t : Tree) :
    (returned t).gather read = t.gather read := by
  have hspan : unspanned.2.gather read = [] := h.gather_eq_nil rfl
  rw [gather_eq, h.blank _ rfl]
  simp [returned, children, hspan]

end SkipsBlanks

theorem sites_delegatingRender : delegatingRender.sites = [] := rfl

theorem sites_binding (specifier : String) (n : Nat) : (binding specifier n).sites = [] := rfl

theorem LocalPass.after_guardedBody (h : LocalPass f) (stmts : List Tree) :
    (guardedBody stmts).after f = guardedBody (stmts.map (after f)) := by
  have hblock : (block .dummy 0 stmts).after f = block .dummy 0 (stmts.map (after f)) :=
    h.after_elsewhere rfl
  have hclause : ∀ clause : Tree, clause.sites = [] → clause.after f = clause :=
    fun clause => h.after_of_sites_eq_nil
  rw [h.after_elsewhere rfl]
  simp only [guardedBody, guarded, mapChildren, mapFields, List.map_cons, List.map_nil, hblock]
  rw [hclause unspanned.2 rfl, hclause (.node "CatchClause" _) rfl, hclause absent rfl]

theorem LocalPass.after_returned (h : LocalPass f) (t : Tree) :
    (returned t).after f = returned (t.after f) := by
  have hspan : unspanned.2.after f = unspanned.2 := h.after_of_sites_eq_nil rfl
  rw [h.after_elsewhere rfl]
  simp only [returned, mapChildren, mapFields, List.map_cons, List.map_nil, hspan]

theorem renamed_of_identifierName?_eq_none {key : Tree} (hk : identifierName? key = none)
    (isStatic : Bool) (function : Tree) (attrs : List (String × Tree)) :
    renamed name (method key isStatic function attrs) = method key isStatic function attrs := by
  cases key <;> simp_all [identifierName?, renamed]

theorem SkipsBlanks.gather_renamed {α : Type} {read : Tree → List α} (h : SkipsBlanks read)
    (name : String) (m : Tree) : (renamed name m).gather read = m.gather read := by
  cases m with
  | method key isStatic function attrs =>
    cases key with
    | identifier old nameAttrs =>
      have hkey : ∀ n, (identifier n nameAttrs).gather read =
          (nameAttrs.map Prod.snd).flatMap (gather read) := by
        intro n
        rw [gather_eq, h.blank _ rfl]
        rfl
      rw [renamed, gather_eq, gather_eq read (method _ _ _ _), h.blank _ rfl, h.blank _ rfl]
      simp only [children, List.flatMap_cons, hkey]
    | _ => rfl
  | _ => rfl

theorem LocalPass.after_renamed (h : LocalPass f) (name : String) (m : Tree) :
    (renamed name m).after f = renamed name (m.after f) := by
  cases m with
  | method key isStatic function attrs =>
    cases hk : identifierName? key with
    | some old =>
      obtain ⟨nameAttrs, rfl⟩ : ∃ nameAttrs, key = identifier old nameAttrs := by
        cases key <;> simp_all [identifierName?]
      have hkey : ∀ n, (identifier n nameAttrs).after f =
          identifier n (mapFields (after f) nameAttrs) := fun n => h.after_elsewhere rfl
      rw [renamed, h.after_elsewhere rfl, h.after_elsewhere rfl]
      simp only [mapChildren, hkey, renamed]
    | none =>
      have hk' : identifierName? (key.after f) = none := by rw [h.identifierName?_after, hk]
      rw [renamed_of_identifierName?_eq_none hk, h.after_elsewhere rfl, mapChildren,
        renamed_of_identifierName?_eq_none hk']
  | arrow params body attrs =>
    obtain ⟨body', he⟩ := h.after_arrow params body attrs
    simp only [renamed, he]
  | classDef form name superClass members attrs =>
    obtain ⟨members', he⟩ := h.after_classDef form name superClass members attrs
    simp only [renamed, he]
  | _ =>
    simp only [renamed]
    rw [h.after_elsewhere rfl]
    rfl

theorem map_modify_of_eq {α β : Type} {k : α → α} {c : α → β} (hk : ∀ a, c (k a) = c a)
    (i : Nat) (as : List α) : (as.modify i k).map c = as.map c := by
  apply List.ext_getElem?
  intro j
  rw [List.getElem?_map, List.getElem?_modify, List.getElem?_map]
  split <;> cases as[j]? <;> simp [hk]

theorem map_modify_comm {α : Type} {k c : α → α} (hk : ∀ a, c (k a) = k (c a))
    (i : Nat) (as : List α) : (as.modify i k).map c = (as.map c).modify i k := by
  apply List.ext_getElem?
  intro j
  rw [List.getElem?_map, List.getElem?_modify, List.getElem?_modify, List.getElem?_map]
  split <;> cases as[j]? <;> simp [hk]

theorem SkipsBlanks.flatMap_gather_guardMembers {α : Type} {read : Tree → List α}
    (h : SkipsBlanks read) (i : Nat) (members : List Tree) :
    (guardMembers i members).flatMap (gather read) = members.flatMap (gather read) := by
  have hnew : delegatingRender.gather read = [] := h.gather_eq_nil rfl
  rw [guardMembers, List.flatMap_cons, hnew, List.nil_append, List.flatMap_def, List.flatMap_def,
    map_modify_of_eq (h.gather_renamed marker)]

theorem flatMap_sites_guardMembers (i : Nat) (members : List Tree) :
    (guardMembers i members).flatMap sites = members.flatMap sites := by
  rw [funext sites_eq_gather]
  exact skipsBlanks_site.flatMap_gather_guardMembers i members

theorem LocalPass.map_guardMembers (h : LocalPass f) (i : Nat) (members : List Tree) :
    (guardMembers i members).map (after f) = guardMembers i (members.map (after f)) := by
  rw [guardMembers, List.map_cons, h.after_of_sites_eq_nil sites_delegatingRender,
    map_modify_comm (h.after_renamed marker), guardMembers]

/-- The place in the source text of a body that is a block. -/
def blockSpan? : Tree → Option Span
  | block span _ _ => some span
  | _ => none

theorem LocalPass.blockSpan?_after (h : LocalPass f) (t : Tree) :
    (t.after f).blockSpan? = t.blockSpan? :=
  h.eq_after blockSpan? (fun t => by cases t <;> rfl) (fun _ _ _ _ => rfl)
    (fun _ _ _ _ _ _ => rfl) t

theorem guardBody_of_blockSpan?_eq_none {body : Tree} (hb : body.blockSpan? = none) :
    guardBody body = block .dummy 0 [guardedBody [returned body]] := by
  cases body <;> simp_all [blockSpan?, guardBody]

theorem SkipsBlanks.gather_guardBody {α : Type} {read : Tree → List α} (h : SkipsBlanks read)
    (body : Tree) : (guardBody body).gather read = body.gather read := by
  cases hb : body.blockSpan? with
  | some span =>
    cases body <;> simp_all [blockSpan?, guardBody, h.gather_block, h.gather_guardedBody]
  | none =>
    rw [guardBody_of_blockSpan?_eq_none hb, h.gather_block, h.blank _ rfl]
    simp [h.gather_guardedBody, h.gather_returned]

theorem sites_guardBody (body : Tree) : (guardBody body).sites = body.sites := by
  simp only [sites_eq_gather, skipsBlanks_site.gather_guardBody]

theorem LocalPass.after_guardBody (h : LocalPass f) (body : Tree) :
    (guardBody body).after f = guardBody (body.after f) := by
  have hblock : ∀ span context stmts, (block span context stmts).after f =
      block span context (stmts.map (after f)) := fun _ _ _ => h.after_elsewhere rfl
  cases hb : body.blockSpan? with
  | some span =>
    cases body <;> simp_all [blockSpan?, guardBody, h.after_guardedBody]
  | none =>
    have hb' : (body.after f).blockSpan? = none := by rw [h.blockSpan?_after, hb]
    rw [guardBody_of_blockSpan?_eq_none hb, guardBody_of_blockSpan?_eq_none hb', hblock]
    simp [h.after_guardedBody, h.after_returned]

/-- A class component that shows it is wrapped is only reported, one with a render is wrapped, and
any other class is left alone. -/
theorem wrapClass_cases (form : ClassForm) (name superClass : Tree) (members : List Tree)
    (attrs : List (String × Tree)) :
    (isBase superClass = true ∧ members.any isMarker = true ∧
      wrapClass (classDef form name superClass members attrs) =
        ⟨classDef form name superClass members attrs,
          [.alreadyWrapped (identifierName? name)], false⟩) ∨
    (isBase superClass = true ∧ members.any isMarker = false ∧
      ∃ i, lastIndex? (isNamed renderName) members = some i ∧
        wrapClass (classDef form name superClass members attrs) =
          ⟨classDef form name superClass (guardMembers i members) attrs,
            [.wrappedClass (identifierName? name)], true⟩) ∨
    ((isBase superClass && (members.any (isNamed renderName) || members.any isMarker)) = false ∧
      wrapClass (classDef form name superClass members attrs) =
        pure (classDef form name superClass members attrs)) := by
  simp only [wrapClass, locateRender, any_eq_isSome_lastIndex? (isNamed renderName)]
  cases isBase superClass with
  | false => exact Or.inr (Or.inr ⟨rfl, rfl⟩)
  | true =>
    cases members.any isMarker with
    | true =>
      left
      refine ⟨rfl, rfl, ?_⟩
      cases lastIndex? (isNamed renderName) members <;> rfl
    | false =>
      right
      cases lastIndex? (isNamed renderName) members with
      | some i => exact Or.inl ⟨rfl, rfl, i, rfl, rfl⟩
      | none => exact Or.inr ⟨rfl, rfl⟩

theorem wrapArrow_cases (params : List Tree) (body : Tree) (attrs : List (String × Tree)) :
    (isPropsOnly params = true ∧ wrapArrow (arrow params body attrs) =
      ⟨arrow params (guardBody body) attrs, [.wrappedArrow], true⟩) ∨
    (isPropsOnly params = false ∧
      wrapArrow (arrow params body attrs) = pure (arrow params body attrs)) := by
  simp only [wrapArrow]
  cases isPropsOnly params with
  | true => exact Or.inl ⟨rfl, rfl⟩
  | false => exact Or.inr ⟨rfl, rfl⟩

theorem localPass_wrapClass : LocalPass wrapClass where
  elsewhere {t} ht := by
    cases t <;> simp_all [isSite, wrapClass]
  atArrow params body attrs := ⟨body, rfl⟩
  atClass form name superClass members attrs := by
    rcases wrapClass_cases form name superClass members attrs with
      ⟨_, _, he⟩ | ⟨_, _, i, _, he⟩ | ⟨_, he⟩
    · exact ⟨members, by rw [he]⟩
    · exact ⟨guardMembers i members, by rw [he]⟩
    · exact ⟨members, by rw [he, value_pure]⟩

theorem localPass_wrapArrow : LocalPass wrapArrow where
  elsewhere {t} ht := by
    cases t <;> simp_all [isSite, wrapArrow]
  atArrow params body attrs := by
    rcases wrapArrow_cases params body attrs with ⟨_, he⟩ | ⟨_, he⟩
    · exact ⟨guardBody body, by rw [he]⟩
    · exact ⟨body, by rw [he, value_pure]⟩
  atClass form name superClass members attrs := ⟨members, rfl⟩

theorem rewrite_wrapClass : Rewrite wrapClass where
  toLocalPass := localPass_wrapClass
  commutes {g} hg t := by
    cases t with
    | classDef form name superClass members attrs =>
      simp only [mapChildren, wrapClass, hg.isBase_after, hg.locateRender_map,
        hg.identifierName?_after]
      split
      · split
        · rfl
        · ext1
          · simp [mapChildren, hg.map_guardMembers]
          · rfl
          · rfl
        · rfl
      · rfl
    | _ => rfl
  sitesBelow_value t := by
    cases t with
    | classDef form name superClass members attrs =>
      rcases wrapClass_cases form name superClass members attrs with
        ⟨_, _, he⟩ | ⟨_, _, i, _, he⟩ | ⟨_, he⟩
      · rw [he]
      · simp only [he, sitesBelow, children, List.cons_append, List.flatMap_cons,
          List.flatMap_append, flatMap_sites_guardMembers]
      · rw [he, value_pure]
    | _ => rfl

theorem rewrite_wrapArrow : Rewrite wrapArrow where
  toLocalPass := localPass_wrapArrow
  commutes {g} hg t := by
    cases t with
    | arrow params body attrs =>
      simp only [mapChildren, wrapArrow, hg.isPropsOnly_map]
      split
      · ext1
        · simp [mapChildren, hg.after_guardBody]
        · rfl
        · rfl
      · rfl
    | _ => rfl
  sitesBelow_value t := by
    cases t with
    | arrow params body attrs =>
      rcases wrapArrow_cases params body attrs with ⟨_, he⟩ | ⟨_, he⟩
      · simp only [he, sitesBelow, children, List.flatMap_cons, List.flatMap_append,
          sites_guardBody]
      · rw [he, value_pure]
    | _ => rfl

theorem rewrite_wrapNode : Rewrite wrapNode := rewrite_wrapClass.comp rewrite_wrapArrow

theorem wrapNode_classDef (form : ClassForm) (name superClass : Tree) (members : List Tree)
    (attrs : List (String × Tree)) :
    wrapNode (classDef form name superClass members attrs) =
      wrapClass (classDef form name superClass members attrs) := by
  obtain ⟨members', he⟩ := localPass_wrapClass.atClass form name superClass members attrs
  ext1
  · rw [wrapNode, value_bind, he]
    rfl
  · rw [wrapNode, events_bind, he]
    exact List.append_nil _
  · rw [wrapNode, wrapped_bind, he]
    exact Bool.or_false _

theorem wrapNode_arrow (params : List Tree) (body : Tree) (attrs : List (String × Tree)) :
    wrapNode (arrow params body attrs) = wrapArrow (arrow params body attrs) := rfl

theorem value_wrapNode_eq_self {t : Tree} (h : (wrapNode t).wrapped = false) :
    (wrapNode t).value = t := by
  cases t with
  | classDef form name superClass members attrs =>
    rw [wrapNode_classDef] at h ⊢
    rcases wrapClass_cases form name superClass members attrs with
      ⟨_, _, he⟩ | ⟨_, _, i, _, he⟩ | ⟨_, he⟩
    · rw [he]
    · simp [he] at h
    · rw [he, value_pure]
  | arrow params body attrs =>
    rw [wrapNode_arrow] at h ⊢
    rcases wrapArrow_cases params body attrs with ⟨_, he⟩ | ⟨_, he⟩
    · simp [he] at h
    · rw [he, value_pure]
  | _ => rfl

end RenderGuard.Tree
