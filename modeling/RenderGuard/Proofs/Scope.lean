import RenderGuard.Proofs.Change
import RenderGuard.Proofs.Repetition

/-! Runs over one program that is changed in place, some of which may fail. -/
namespace RenderGuard

open Component Fragment Traced

namespace Tree

variable {t u v : Tree}

theorem mem_nodes_trans (hu : u ∈ t.nodes) (hv : v ∈ u.nodes) : v ∈ t.nodes := by
  induction t using inductionOnChildren with
  | step t ih =>
    rw [nodes_eq, List.mem_cons, List.mem_flatMap] at hu
    rcases hu with rfl | ⟨c, hc, hu⟩
    · exact hv
    · exact mem_nodes_of_mem_children hc (ih c hc hu)

theorem exists_callee_of_callsHandler (h : t.callsHandler = true) :
    ∃ c ∈ t.nodes, identifierName? c = some handlerName := by
  cases t with
  | node kind fields =>
    obtain ⟨_, hcallee⟩ := (Bool.and_eq_true _ _).mp h
    obtain ⟨c, hc, hname⟩ := Option.bind_eq_some_iff.1 (eq_of_beq hcallee)
    obtain ⟨before, after, rfl, _⟩ := List.lookup_eq_some_iff.1 hc
    have hm : c ∈ (node kind (before ++ ("callee", c) :: after)).children := by
      simp [children]
    exact ⟨c, mem_nodes_of_mem_children hm (mem_nodes_self c), hname⟩
  | _ => cases h

theorem exists_binder_of_binding (specifier : String) (n : Nat) :
    ∃ c ∈ (binding specifier n).nodes, identifierName? c = some handlerName := by
  have hany : (binding specifier n).nodes.any (identifierName? · == some handlerName) = true := rfl
  obtain ⟨c, hc, hname⟩ := List.any_eq_true.1 hany
  exact ⟨c, hc, eq_of_beq hname⟩

end Tree

namespace Program

open RenderGuard.Tree

variable {p q : Program} {options : Options} {context : Nat} {wrapped : Bool}

/-- Some item binds the handler, and no item before it calls the handler. -/
def BindsHandler (q : Program) : Prop :=
  ∃ before specifier context after, q.body = before ++ binding specifier context :: after ∧
    ∀ t ∈ before, ∀ u ∈ t.nodes, u.callsHandler = false

/-- If the handler is called anywhere, it is bound before. -/
def Scoped (q : Program) : Prop := (∃ u ∈ q.nodes, u.callsHandler = true) → q.BindsHandler

/-- The program that runs with these options and contexts leave, one after the other. -/
def applyAll (p : Program) : List (Options × Nat) → Program
  | [] => p
  | (options, context) :: calls => (p.apply options context).value.program.applyAll calls

theorem directives_and_items_apply (hd : ∀ t ∈ p.directives, t.sites = []) (options : Options)
    (context : Nat) :
    (p.apply options context).value.program.directives = p.directives ∧
      (p.apply options context).value.program.items =
        (bindingItem? p.wrap.wrapped options context).toList ++ p.items.map (after wrapNode) := by
  have hpass : LocalPass wrapNode := rewrite_wrapNode.toLocalPass
  have hnew : ∀ t ∈ (bindingItem? p.wrap.wrapped options context).toList,
      isDirective t = false := fun _ => isDirective_of_mem_bindingItem?
  rw [(apply_cases p options context).1, directives_insertAll hnew, items_insertAll hnew,
    wrap_eq_pass, directives_pass hpass, items_pass hpass, hpass.map_after_eq_self hd]
  exact ⟨rfl, rfl⟩

theorem any_isPropsArrow_apply (p : Program) (options : Options) (context : Nat) :
    (p.apply options context).value.program.nodes.any isPropsArrow =
      p.nodes.any isPropsArrow := by
  have hread : isPropsArrow ∘ after wrapNode = isPropsArrow :=
    funext rewrite_wrapNode.isPropsArrow_after
  rw [any_nodes_eq fun _ => isSite_of_isPropsArrow, any_nodes_eq fun _ => isSite_of_isPropsArrow,
    (apply_cases p options context).1, sites_insertAll fun _ => sites_of_mem_bindingItem?,
    wrap_eq_pass, sites_pass rewrite_wrapNode, List.any_map, hread]

theorem wrapped_of_any_isPropsArrow (h : p.nodes.any isPropsArrow = true) :
    p.wrap.wrapped = true := by
  obtain ⟨t, ht, ha⟩ := List.any_eq_true.1 h
  refine (wrapped_wrap_iff p).2 ⟨t, ht, ?_⟩
  cases t with
  | arrow params body attrs => exact ha
  | _ => cases ha

theorem apply_fails_iff : (p.apply options context).value.result = .error .missing ↔
    p.wrap.wrapped = true ∧ options.handler? = none := by
  rw [(apply_cases p options context).2]
  by_cases hn : p.wrap.wrapped = true ∧ options.handler? = none
  · simp [hn]
  · rw [if_neg hn]
    exact iff_of_false nofun hn

/-- The items start with a binding of the handler. -/
def HandlerFirst (q : Program) : Prop :=
  ∃ specifier context rest, q.items = binding specifier context :: rest

theorem handlerFirst_of_wrapped (hd : ∀ t ∈ p.directives, t.sites = [])
    (hw : p.wrap.wrapped = true) (hok : (p.apply options context).value.result = .ok wrapped) :
    (p.apply options context).value.program.HandlerFirst := by
  cases hs : options.handler? with
  | none =>
    rw [apply_fails_iff.2 ⟨hw, hs⟩] at hok
    cases hok
  | some specifier =>
    refine ⟨specifier, context, p.items.map (after wrapNode), ?_⟩
    rw [(directives_and_items_apply hd options context).2, bindingItem?, if_pos hw, hs]
    rfl

/-- A binding in front stays in front, or a new one comes before it. -/
theorem handlerFirst_apply (hd : ∀ t ∈ p.directives, t.sites = []) (h : p.HandlerFirst)
    (options : Options) (context : Nat) :
    (p.apply options context).value.program.HandlerFirst := by
  obtain ⟨specifier, n, rest, hitems⟩ := h
  have hold : (binding specifier n).after wrapNode = binding specifier n :=
    rewrite_wrapNode.after_of_sites_eq_nil (sites_binding specifier n)
  have happly := (directives_and_items_apply hd options context).2
  rw [hitems, List.map_cons, hold] at happly
  cases hb : bindingItem? p.wrap.wrapped options context with
  | none =>
    rw [hb] at happly
    exact ⟨specifier, n, _, happly⟩
  | some item =>
    obtain ⟨new, -, rfl⟩ := exists_of_bindingItem? hb
    rw [hb] at happly
    exact ⟨new, context, _, happly⟩

theorem bindsHandler_of_handlerFirst (h : q.HandlerFirst)
    (hd : ∀ t ∈ q.directives, ∀ u ∈ t.nodes, u.callsHandler = false) : q.BindsHandler := by
  obtain ⟨specifier, n, rest, hitems⟩ := h
  exact ⟨q.directives, specifier, n, rest, by rw [← hitems, directives_append_items], hd⟩

theorem directives_applyAll (hd : ∀ t ∈ p.directives, t.sites = [])
    (calls : List (Options × Nat)) : (p.applyAll calls).directives = p.directives := by
  induction calls generalizing p with
  | nil => rfl
  | cons call calls ih =>
    obtain ⟨options, context⟩ := call
    have h := (directives_and_items_apply hd options context).1
    rw [applyAll, ih (by rw [h]; exact hd), h]

theorem any_isPropsArrow_applyAll (p : Program) (calls : List (Options × Nat)) :
    (p.applyAll calls).nodes.any isPropsArrow = p.nodes.any isPropsArrow := by
  induction calls generalizing p with
  | nil => rfl
  | cons call calls ih => rw [applyAll, ih, any_isPropsArrow_apply]

theorem applyAll_of_wrapped_eq_false (h : p.wrap.wrapped = false) (calls : List (Options × Nat)) :
    p.applyAll calls = p := by
  induction calls with
  | nil => rfl
  | cons call calls ih => rw [applyAll, apply_of_wrapped_eq_false h, ih]

theorem handlerFirst_applyAll (hd : ∀ t ∈ p.directives, t.sites = []) (h : p.HandlerFirst)
    (calls : List (Options × Nat)) : (p.applyAll calls).HandlerFirst := by
  induction calls generalizing p with
  | nil => exact h
  | cons call calls ih =>
    obtain ⟨options, context⟩ := call
    apply ih _ (handlerFirst_apply hd h options context)
    rw [(directives_and_items_apply hd options context).1]
    exact hd

theorem callsHandler_of_free (hfree : ∀ t ∈ p.nodes, identifierName? t ≠ some handlerName) :
    ∀ t ∈ p.nodes, t.callsHandler = false := by
  intro t ht
  by_contra h
  obtain ⟨c, hc, hname⟩ := exists_callee_of_callsHandler (by simpa using h)
  obtain ⟨item, hitem, hm⟩ := List.mem_flatMap.1 ht
  exact hfree c (List.mem_flatMap.2 ⟨item, hitem, mem_nodes_trans hm hc⟩) hname

/-- Wrapping makes no binding: an item that is one after it was one before. -/
theorem not_bindsHandler_wrap (hfree : ∀ t ∈ p.nodes, identifierName? t ≠ some handlerName) :
    ¬ p.wrap.value.BindsHandler := by
  rintro ⟨before, specifier, n, rest, hbody, _⟩
  have hm : binding specifier n ∈ p.body.map (after wrapNode) := by
    have hsame : p.wrap.value.body = p.body.map (after wrapNode) := by
      rw [wrap_eq_pass, value_pass]
    rw [← hsame, hbody]
    exact List.mem_append_right _ List.mem_cons_self
  obtain ⟨item, hitem, he⟩ := List.mem_map.1 hm
  have hsites : item.sites = [] := by
    have h := rewrite_wrapNode.sites_after item
    rw [he, sites_binding] at h
    exact List.map_eq_nil_iff.1 h.symm
  rw [rewrite_wrapNode.after_of_sites_eq_nil hsites] at he
  subst he
  obtain ⟨c, hc, hname⟩ := exists_binder_of_binding specifier n
  exact hfree c (List.mem_flatMap.2 ⟨_, hitem, hc⟩) hname

theorem not_scoped_wrap (hfree : ∀ t ∈ p.nodes, identifierName? t ≠ some handlerName)
    (hw : p.wrap.wrapped = true) : ¬ p.wrap.value.Scoped := by
  intro h
  have hcalls := countP_callsHandler_wrap p
  have hpos : 0 < p.nodes.countP isUnguarded :=
    List.countP_pos_iff.2 ((wrapped_wrap_iff p).1 hw)
  exact not_bindsHandler_wrap hfree (h (List.countP_pos_iff.1 (by omega)))

theorem scoped_of_forall (h : ∀ u ∈ q.nodes, u.callsHandler = false) : q.Scoped := by
  rintro ⟨u, hu, hc⟩
  simp [h u hu] at hc

/-- Once the classes are wrapped and nothing is bound, no later run changes that: it has nothing
left to wrap. -/
theorem applyAll_of_first_fails (ha : p.nodes.any isPropsArrow = false)
    (hfails : (p.apply options context).value.result = .error .missing)
    (later : List (Options × Nat)) :
    p.applyAll ((options, context) :: later) = p.wrap.value ∧
      p.wrap.value.wrap.wrapped = false := by
  obtain ⟨hw, hs⟩ := apply_fails_iff.1 hfails
  have hleft : (p.apply options context).value.program = p.wrap.value := by
    rw [(apply_cases p options context).1, bindingItem?, hw, if_pos rfl, hs]
    exact insertAll_nil _
  have hsettled : p.wrap.value.wrap.wrapped = false := hleft ▸ wrapped_wrap_apply ha options context
  exact ⟨by rw [applyAll, hleft, applyAll_of_wrapped_eq_false hsettled], hsettled⟩

/-- The items start with a binding after a run that succeeds, unless nothing was wrapped or the
first run failed to bind for classes that no later one wraps. -/
theorem handlerFirst_apply_applyAll (hd : ∀ t ∈ p.directives, t.sites = [])
    (hw : p.wrap.wrapped = true) (calls : List (Options × Nat))
    (hfirst : p.nodes.any isPropsArrow = true ∨ ∀ first ∈ calls.head?,
      (p.apply first.1 first.2).value.result ≠ .error .missing)
    (hok : ((p.applyAll calls).apply options context).value.result = .ok wrapped) :
    ((p.applyAll calls).apply options context).value.program.HandlerFirst := by
  have hall : ∀ t ∈ (p.applyAll calls).directives, t.sites = [] := by
    rw [directives_applyAll hd]
    exact hd
  rcases hfirst with ha | hfirst
  · -- Every run wraps the arrows again, the last one included.
    have hlast : (p.applyAll calls).wrap.wrapped = true :=
      wrapped_of_any_isPropsArrow (by rw [any_isPropsArrow_applyAll, ha])
    exact handlerFirst_of_wrapped hall hlast hok
  · cases calls with
    | nil => exact handlerFirst_of_wrapped hd hw hok
    | cons first later =>
      obtain ⟨options', context'⟩ := first
      have hbinds : ∃ w, (p.apply options' context').value.result = .ok w := by
        cases he : (p.apply options' context').value.result with
        | ok w => exact ⟨w, rfl⟩
        | error e => exact absurd he (hfirst _ rfl)
      obtain ⟨w, hw'⟩ := hbinds
      have hd' : ∀ t ∈ (p.apply options' context').value.program.directives, t.sites = [] := by
        rw [(directives_and_items_apply hd options' context').1]
        exact hd
      apply handlerFirst_apply hall
      exact handlerFirst_applyAll hd' (handlerFirst_of_wrapped hd hw hw') later

/-- After a run that succeeds the handler is bound before every call of it, unless the first of the
runs failed and there are no arrow components. -/
theorem scoped_apply_iff (hp : p.WellFormed)
    (hfree : ∀ t ∈ p.nodes, identifierName? t ≠ some handlerName) (calls : List (Options × Nat))
    (hok : ((p.applyAll calls).apply options context).value.result = .ok wrapped) :
    ((p.applyAll calls).apply options context).value.program.Scoped ↔
      ¬ (p.nodes.any isPropsArrow = false ∧ ∃ first ∈ calls.head?,
        (p.apply first.1 first.2).value.result = .error .missing) := by
  have hsilent := callsHandler_of_free hfree
  have hd : ∀ t ∈ p.directives, t.sites = [] := fun _ => hp.sites_directive
  constructor
  · rintro hscoped ⟨ha, first, hfirst, hfails⟩
    obtain ⟨later, rfl⟩ := List.head?_eq_some_iff.1 hfirst
    obtain ⟨hleft, hsettled⟩ := applyAll_of_first_fails ha hfails later
    rw [hleft, apply_of_wrapped_eq_false hsettled] at hscoped
    exact not_scoped_wrap hfree (apply_fails_iff.1 hfails).1 hscoped
  · intro hnot
    cases hw : p.wrap.wrapped with
    | false =>
      rw [applyAll_of_wrapped_eq_false hw, apply_of_wrapped_eq_false hw]
      exact scoped_of_forall hsilent
    | true =>
      have hall := directives_applyAll hd calls
      have hfirst : p.nodes.any isPropsArrow = true ∨ ∀ first ∈ calls.head?,
          (p.apply first.1 first.2).value.result ≠ .error .missing := by
        by_cases ha : p.nodes.any isPropsArrow = true
        · exact Or.inl ha
        · exact Or.inr fun first hm hfails => hnot ⟨by simpa using ha, first, hm, hfails⟩
      intro _
      apply bindsHandler_of_handlerFirst (handlerFirst_apply_applyAll hd hw calls hfirst hok)
      rw [(directives_and_items_apply (by rw [hall]; exact hd) options context).1, hall]
      exact fun t ht u hu => hsilent u (mem_nodes_of_mem_directives ht u hu)

theorem scoped_apply_iff_sample : sample.WellFormed ∧
    (∀ t ∈ sample.nodes, identifierName? t ≠ some handlerName) ∧
    (sample.apply ⟨none⟩ 0).value.result = .error .missing ∧
    ((sample.applyAll [(⟨none⟩, 0)]).apply ⟨some "./handler"⟩ 0).value.result = .ok true ∧
    ((sample.applyAll [(⟨none⟩, 0)]).apply ⟨some "./handler"⟩ 0).value.program.Scoped := by
  have hp : sample.WellFormed :=
    List.all_eq_true.1 (by decide : sample.nodes.all isWellFormed = true)
  have hfree : ∀ t ∈ sample.nodes, identifierName? t ≠ some handlerName := by
    simpa using (by decide : sample.nodes.all (identifierName? · != some handlerName) = true)
  have hok : ((sample.applyAll [(⟨none⟩, 0)]).apply ⟨some "./handler"⟩ 0).value.result =
      .ok true := rfl
  have harrow : sample.nodes.any isPropsArrow = true := by decide
  exact ⟨hp, hfree, rfl, hok, (scoped_apply_iff hp hfree _ hok).2 fun h => by simp [harrow] at h⟩

/-- A run that succeeds may leave a class calling a handler that nothing binds, if an earlier run
failed after it had wrapped the class. -/
theorem not_scoped_after_failed_run : classSample.WellFormed ∧
    (∀ t ∈ classSample.nodes, identifierName? t ≠ some handlerName) ∧
    (classSample.apply ⟨none⟩ 0).value.result = .error .missing ∧
    ((classSample.applyAll [(⟨none⟩, 0)]).apply ⟨some "./handler"⟩ 0).value.result = .ok false ∧
    ¬ ((classSample.applyAll [(⟨none⟩, 0)]).apply ⟨some "./handler"⟩ 0).value.program.Scoped := by
  have hp : classSample.WellFormed :=
    List.all_eq_true.1 (by decide : classSample.nodes.all isWellFormed = true)
  have hfree : ∀ t ∈ classSample.nodes, identifierName? t ≠ some handlerName := by
    simpa using (by decide : classSample.nodes.all (identifierName? · != some handlerName) = true)
  refine ⟨hp, hfree, rfl, rfl, ?_⟩
  have hleft : ((classSample.applyAll [(⟨none⟩, 0)]).apply ⟨some "./handler"⟩ 0).value.program =
      classSample.wrap.value := rfl
  rw [hleft]
  exact not_scoped_wrap hfree rfl

end Program

end RenderGuard
