import Mathlib.Data.List.TakeWhile
import RenderGuard.Transform
import RenderGuard.Proofs.Programs

/-! What a run does beside wrapping: it puts in one item at most, after the directives. -/
namespace RenderGuard

open RenderGuard.Tree Fragment Traced

variable {f : Tree → Traced Tree} {p : Program} {t : Tree} {options : Options} {context : Nat}

theorem Tree.LocalPass.isDirective_after (h : LocalPass f) (t : Tree) :
    Program.isDirective (t.after f) = Program.isDirective t := by
  have hliteral : ∀ expression attrs,
      Program.isDirective (expressionStatement expression attrs) = expression.literal?.isSome := by
    intro expression attrs
    cases expression <;> rfl
  apply h.eq_after Program.isDirective
  · intro t
    cases t with
    | expressionStatement expression attrs =>
      rw [mapChildren, hliteral, hliteral, h.literal?_after]
    | _ => rfl
  · intros
    rfl
  · intros
    rfl

def Tree.isLeaf : Tree → Bool
  | leaf _ => true
  | _ => false

/-- Whether a node has no more below it than its kind allows: strings have nothing but leaves, and
statements that are an expression nothing but leaves beside it. -/
def Tree.isWellFormed : Tree → Bool
  | stringLiteral _ attrs => attrs.all (·.2.isLeaf)
  | expressionStatement _ attrs => attrs.all (·.2.isLeaf)
  | _ => true

def Program.WellFormed (p : Program) : Prop := ∀ t ∈ p.nodes, t.isWellFormed = true

theorem Tree.flatMap_sites_of_isLeaf {attrs : List (String × Tree)}
    (h : attrs.all (·.2.isLeaf) = true) : (attrs.map Prod.snd).flatMap sites = [] := by
  rw [List.flatMap_eq_nil_iff]
  intro t ht
  obtain ⟨field, hm, rfl⟩ := List.mem_map.1 ht
  have hl : field.2.isLeaf = true := List.all_eq_true.1 h field hm
  cases hv : field.2 with
  | leaf v => rfl
  | _ => simp [hv, isLeaf] at hl

namespace Program

theorem directives_append_items (p : Program) : p.directives ++ p.items = p.body :=
  List.takeWhile_append_dropWhile

theorem isDirective_of_mem_directives {t : Tree} (h : t ∈ p.directives) : isDirective t = true :=
  List.mem_takeWhile_imp h

theorem takeWhile_items (p : Program) : p.items.takeWhile isDirective = [] := by
  rw [List.takeWhile_eq_nil_iff]
  intro hn
  exact List.dropWhile_get_zero_not isDirective p.body hn

theorem directives_pass (h : LocalPass f) (p : Program) :
    (p.pass f).value.directives = p.directives.map (after f) := by
  have hd : isDirective ∘ after f = isDirective := funext h.isDirective_after
  rw [value_pass, directives, List.takeWhile_map, hd, directives]

theorem items_pass (h : LocalPass f) (p : Program) :
    (p.pass f).value.items = p.items.map (after f) := by
  have hd : isDirective ∘ after f = isDirective := funext h.isDirective_after
  rw [value_pass, items, List.dropWhile_map, hd, items]

/-- The program with `new` between its directives and its items. -/
def insertAll (p : Program) (new : List Tree) : Program :=
  { p with body := p.directives ++ new ++ p.items }

theorem insertAll_nil (p : Program) : p.insertAll [] = p := by
  rw [insertAll, List.append_nil, directives_append_items]

theorem insert_eq_insertAll (p : Program) (item : Tree) : p.insert item = p.insertAll [item] := by
  simp [insert, insertAll]

theorem directives_and_items_of_body {ds is : List Tree} (hb : p.body = ds ++ is)
    (hd : ∀ t ∈ ds, isDirective t = true) (hi : is.takeWhile isDirective = []) :
    p.directives = ds ∧ p.items = is := by
  have hds : p.directives = ds := by
    rw [directives, hb, List.takeWhile_append_of_pos hd, hi, List.append_nil]
  refine ⟨hds, ?_⟩
  have happ : ds ++ p.items = ds ++ is := by rw [← hds, directives_append_items, hb, hds]
  exact List.append_cancel_left happ

theorem takeWhile_append_items {new : List Tree} (h : ∀ t ∈ new, isDirective t = false) :
    (new ++ p.items).takeWhile isDirective = [] := by
  cases new with
  | nil => exact takeWhile_items p
  | cons t ts => simp [h t List.mem_cons_self]

theorem directives_insertAll {new : List Tree} (h : ∀ t ∈ new, isDirective t = false) :
    (p.insertAll new).directives = p.directives :=
  (directives_and_items_of_body (List.append_assoc _ _ _)
    (fun _ => isDirective_of_mem_directives) (takeWhile_append_items h)).1

theorem items_insertAll {new : List Tree} (h : ∀ t ∈ new, isDirective t = false) :
    (p.insertAll new).items = new ++ p.items :=
  (directives_and_items_of_body (List.append_assoc _ _ _)
    (fun _ => isDirective_of_mem_directives) (takeWhile_append_items h)).2

/-- What is put in later comes before what is there. -/
theorem insertAll_insertAll {old : List Tree} (h : ∀ t ∈ old, isDirective t = false)
    (new : List Tree) : (p.insertAll old).insertAll new = p.insertAll (new ++ old) := by
  rw [insertAll, directives_insertAll h, items_insertAll h]
  simp only [insertAll, List.append_assoc]

theorem sites_insertAll {new : List Tree} (hnew : ∀ t ∈ new, t.sites = []) (p : Program) :
    (p.insertAll new).sites = p.sites := by
  have hnone : new.flatMap Tree.sites = [] := List.flatMap_eq_nil_iff.2 hnew
  calc (p.directives ++ new ++ p.items).flatMap Tree.sites
    _ = p.directives.flatMap Tree.sites ++ p.items.flatMap Tree.sites := by
      rw [List.flatMap_append, List.flatMap_append, hnone, List.append_nil]
    _ = p.body.flatMap Tree.sites := by rw [← List.flatMap_append, directives_append_items]

/-- Code without classes and arrows may as well be put in after the walk. -/
theorem pass_insertAll (h : LocalPass f) {new : List Tree} (hnew : ∀ t ∈ new, t.sites = []) :
    ((p.insertAll new).pass f).value = (p.pass f).value.insertAll new := by
  have hfixed : new.map (after f) = new := h.map_after_eq_self hnew
  rw [insertAll, insertAll, directives_pass h, items_pass h]
  simp only [value_pass, List.map_append, hfixed]

theorem wrapped_pass_insertAll (h : LocalPass f) {new : List Tree}
    (hnew : ∀ t ∈ new, t.sites = []) :
    ((p.insertAll new).pass f).wrapped = (p.pass f).wrapped := by
  have hnone := h.any_wrapped_eq_false hnew
  rw [wrapped_pass, wrapped_pass, ← directives_append_items p]
  simp only [insertAll, List.any_append, hnone, Bool.or_false]

theorem isDirective_binding (specifier : String) (n : Nat) :
    isDirective (binding specifier n) = false := rfl

theorem mem_nodes_of_mem_directives (h : t ∈ p.directives) : ∀ u ∈ t.nodes, u ∈ p.nodes := by
  intro u hu
  have hb : t ∈ p.body := (List.takeWhile_prefix isDirective).subset h
  exact List.mem_flatMap.2 ⟨t, hb, hu⟩

theorem WellFormed.sites_directive (hp : p.WellFormed) (h : t ∈ p.directives) :
    t.sites = [] := by
  have hnode : ∀ u ∈ t.nodes, u.isWellFormed = true :=
    fun u hu => hp u (mem_nodes_of_mem_directives h u hu)
  have hd : isDirective t = true := isDirective_of_mem_directives h
  cases t with
  | expressionStatement expression attrs =>
    cases expression with
    | stringLiteral value literalAttrs =>
      have hout : attrs.all (·.2.isLeaf) = true := hnode _ (mem_nodes_self _)
      have hin : literalAttrs.all (·.2.isLeaf) = true :=
        hnode (stringLiteral value literalAttrs)
          (mem_nodes_of_mem_children List.mem_cons_self (mem_nodes_self _))
      have hinner : (stringLiteral value literalAttrs).sites = [] := by
        rw [sites_eq]
        exact flatMap_sites_of_isLeaf hin
      have hbelow : (expressionStatement (stringLiteral value literalAttrs) attrs).sitesBelow =
          [] := by
        rw [sitesBelow, children, List.flatMap_cons, hinner]
        exact flatMap_sites_of_isLeaf hout
      rw [sites_eq]
      exact hbelow
    | _ => cases hd
  | _ => cases hd

/-- The item that binds the handler, if it is needed and the options name one. -/
def bindingItem? (needed : Bool) (options : Options) (context : Nat) : Option Tree :=
  if needed then options.handler?.map (binding · context) else none

theorem exists_of_bindingItem? {needed : Bool} {t : Tree}
    (h : bindingItem? needed options context = some t) :
    ∃ specifier, options.handler? = some specifier ∧ t = binding specifier context := by
  rw [bindingItem?] at h
  split at h
  · obtain ⟨specifier, hs, rfl⟩ := Option.map_eq_some_iff.1 h
    exact ⟨specifier, hs, rfl⟩
  · cases h

theorem sites_of_mem_bindingItem? {needed : Bool} {t : Tree}
    (h : t ∈ (bindingItem? needed options context).toList) : t.sites = [] := by
  obtain ⟨specifier, -, rfl⟩ := exists_of_bindingItem? (Option.mem_toList.1 h)
  exact sites_binding specifier context

theorem isDirective_of_mem_bindingItem? {needed : Bool} {t : Tree}
    (h : t ∈ (bindingItem? needed options context).toList) : isDirective t = false := by
  obtain ⟨specifier, -, rfl⟩ := exists_of_bindingItem? (Option.mem_toList.1 h)
  exact isDirective_binding specifier context

/-- Binding puts the item in or changes nothing; it fails if it is needed and has no item. -/
theorem bindHandler_cases (p : Program) (needed : Bool) (options : Options) (context : Nat) :
    ((needed = true ∧ options.handler? = none) ∧ bindingItem? needed options context = none ∧
      (p.bindHandler needed options context).value = .error .missing) ∨
    (¬ (needed = true ∧ options.handler? = none) ∧
      (p.bindHandler needed options context).value =
        .ok (p.insertAll (bindingItem? needed options context).toList)) := by
  rw [bindHandler, bindingItem?]
  cases needed with
  | false => exact Or.inr ⟨by simp, by simp [insertAll_nil]⟩
  | true =>
    cases options.handler? with
    | none => exact Or.inl ⟨⟨rfl, rfl⟩, rfl, rfl⟩
    | some specifier => exact Or.inr ⟨by simp, by simp [insert_eq_insertAll]⟩

/-- A run leaves the wrapped program with the item, if there is one, also where it fails; it fails
if something was wrapped and there is no handler. -/
theorem apply_cases (p : Program) (options : Options) (context : Nat) :
    (p.apply options context).value.program =
      p.wrap.value.insertAll (bindingItem? p.wrap.wrapped options context).toList ∧
    (p.apply options context).value.result =
      if p.wrap.wrapped = true ∧ options.handler? = none then .error .missing
      else .ok p.wrap.wrapped := by
  rw [apply]
  simp only [value_bind, value_listen]
  rcases bindHandler_cases p.wrap.value p.wrap.wrapped options context with
    ⟨hn, hb, he⟩ | ⟨hn, he⟩
  · rw [he, hb, if_pos hn]
    exact ⟨(insertAll_nil _).symm, rfl⟩
  · rw [he, if_neg hn]
    exact ⟨rfl, rfl⟩

/-- A run reports success with something wrapped exactly if it binds the handler. -/
theorem apply_binds_or_not (p : Program) (options : Options) (context : Nat) :
    ((p.apply options context).value.result = .ok true ∧
      ∃ specifier, options.handler? = some specifier ∧
        (p.apply options context).value.program =
          p.wrap.value.insert (binding specifier context)) ∨
    ((p.apply options context).value.result ≠ .ok true ∧
      (p.apply options context).value.program = p.wrap.value) := by
  obtain ⟨hprogram, hresult⟩ := apply_cases p options context
  rw [hprogram, hresult, bindingItem?]
  cases p.wrap.wrapped with
  | false => exact Or.inr ⟨by simp, insertAll_nil _⟩
  | true =>
    cases options.handler? with
    | none => exact Or.inr ⟨by simp, insertAll_nil _⟩
    | some specifier => exact Or.inl ⟨by simp, specifier, rfl, (insert_eq_insertAll _ _).symm⟩

theorem apply_of_wrapped_eq_false (h : p.wrap.wrapped = false) (options : Options)
    (context : Nat) : (p.apply options context).value = ⟨p, .ok false⟩ := by
  obtain ⟨hprogram, hresult⟩ := apply_cases p options context
  have hnone : bindingItem? false options context = none := rfl
  rw [h, hnone, Option.toList_none, insertAll_nil, wrap_eq_self h] at hprogram
  rw [h, if_neg (by simp)] at hresult
  calc (p.apply options context).value
    _ = ⟨(p.apply options context).value.program, (p.apply options context).value.result⟩ := rfl
    _ = ⟨p, .ok false⟩ := by rw [hprogram, hresult]

theorem transform_eq (p : Program) (options : Options) :
    (p.transform options).value =
      if p.wrap.wrapped = true ∧ options.handler? = none then .error .missing
      else .ok (p.apply options 0).value.program := by
  have hmap : (p.transform options).value =
      (p.apply options 0).value.result.map fun _ => (p.apply options 0).value.program := rfl
  rw [hmap, (apply_cases p options 0).2]
  split <;> rfl

theorem compile_eq (p : Program) (text? : Option String) (context : Nat) :
    (p.compile text? context).value =
      ⟨(p.apply (Options.ofText? text?) context).value.program,
        if p.wrap.wrapped = true ∧ (Options.ofText? text?).handler? = none
          then [⟨HandlerError.missing.message, p.span⟩] else []⟩ := by
  obtain ⟨hprogram, hresult⟩ := apply_cases p (Options.ofText? text?) context
  simp only [compile, value_bind]
  by_cases hn : p.wrap.wrapped = true ∧ (Options.ofText? text?).handler? = none
  · rw [if_pos hn] at hresult ⊢
    simp only [hresult, value_pure]
    rw [hprogram]
    rfl
  · rw [if_neg hn] at hresult ⊢
    simp only [hresult, value_pure]

end Program

end RenderGuard
