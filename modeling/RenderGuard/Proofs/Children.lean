import Mathlib.Data.List.Basic
import Mathlib.Logic.Function.Iterate
import RenderGuard.Tree.Traverse

/-! Trees one layer at a time: the children of a node, induction on them, and the walk. -/
namespace RenderGuard.Tree

open Traced

variable {f : Tree → Traced Tree} {g h : Tree → Tree} {t : Tree} {fields : List (String × Tree)}

theorem any_congr_of_mem {α : Type} {p q : α → Bool} {as : List α} (h : ∀ a ∈ as, p a = q a) :
    as.any p = as.any q := by
  induction as with
  | nil => rfl
  | cons a as ih =>
    obtain ⟨ha, has⟩ := List.forall_mem_cons.1 h
    rw [List.any_cons, List.any_cons, ha, ih has]

theorem flatMap_ite_singleton {α β : Type} (q : α → Bool) (g : α → β) (as : List α) :
    (as.flatMap fun a => if q a then [g a] else []) = (as.filter q).map g := by
  induction as with
  | nil => rfl
  | cons a as ih =>
    rw [List.flatMap_cons, ih, List.filter_cons]
    split <;> rfl

/-- What stands directly below a node, in the order the walk visits it. -/
def children : Tree → List Tree
  | leaf _ => []
  | list items => items
  | record fields => fields.map Prod.snd
  | node _ fields => fields.map Prod.snd
  | identifier _ attrs => attrs.map Prod.snd
  | stringLiteral _ attrs => attrs.map Prod.snd
  | parenthesized inner attrs => inner :: attrs.map Prod.snd
  | memberAccess object property attrs => object :: property :: attrs.map Prod.snd
  | expressionStatement expression attrs => expression :: attrs.map Prod.snd
  | block _ _ stmts => stmts
  | arrow params body attrs => params ++ body :: attrs.map Prod.snd
  | method key _ function attrs => key :: function :: attrs.map Prod.snd
  | classDef _ name superClass members attrs =>
    name :: superClass :: members ++ attrs.map Prod.snd

/-- The named fields with `g` at each of them. -/
def mapFields (g : Tree → Tree) (fields : List (String × Tree)) : List (String × Tree) :=
  fields.map fun field => (field.1, g field.2)

/-- The node with `g` at each of its children. -/
def mapChildren (g : Tree → Tree) : Tree → Tree
  | leaf v => leaf v
  | list items => list (items.map g)
  | record fields => record (mapFields g fields)
  | node kind fields => node kind (mapFields g fields)
  | identifier name attrs => identifier name (mapFields g attrs)
  | stringLiteral value attrs => stringLiteral value (mapFields g attrs)
  | parenthesized inner attrs => parenthesized (g inner) (mapFields g attrs)
  | memberAccess object property attrs =>
    memberAccess (g object) (g property) (mapFields g attrs)
  | expressionStatement expression attrs =>
    expressionStatement (g expression) (mapFields g attrs)
  | block span context stmts => block span context (stmts.map g)
  | arrow params body attrs => arrow (params.map g) (g body) (mapFields g attrs)
  | method key isStatic function attrs =>
    method (g key) isStatic (g function) (mapFields g attrs)
  | classDef form name superClass members attrs =>
    classDef form (g name) (g superClass) (members.map g) (mapFields g attrs)

@[simp] theorem map_snd_mapFields (g : Tree → Tree) (fields : List (String × Tree)) :
    (mapFields g fields).map Prod.snd = (fields.map Prod.snd).map g := by
  simp [mapFields, Function.comp_def]

theorem mapFields_congr (hf : ∀ c ∈ fields.map Prod.snd, g c = h c) :
    mapFields g fields = mapFields h fields := by
  apply List.map_congr_left
  intro field hm
  rw [hf field.2 (List.mem_map_of_mem hm)]

@[simp] theorem mapFields_mapFields (g h : Tree → Tree) (fields : List (String × Tree)) :
    mapFields h (mapFields g fields) = mapFields (h ∘ g) fields := by
  simp [mapFields, Function.comp_def]

@[simp] theorem mapFields_id (fields : List (String × Tree)) : mapFields id fields = fields := by
  simp [mapFields]

@[simp] theorem children_mapChildren (g : Tree → Tree) (t : Tree) :
    (t.mapChildren g).children = t.children.map g := by
  cases t <;> simp [mapChildren, children]

theorem mapChildren_congr (hc : ∀ c ∈ t.children, g c = h c) :
    t.mapChildren g = t.mapChildren h := by
  cases t with
  | leaf v => rfl
  | list items => exact congrArg list (List.map_congr_left hc)
  | record fields => exact congrArg record (mapFields_congr hc)
  | node kind fields => exact congrArg (node kind) (mapFields_congr hc)
  | identifier name attrs => exact congrArg (identifier name) (mapFields_congr hc)
  | stringLiteral value attrs => exact congrArg (stringLiteral value) (mapFields_congr hc)
  | parenthesized inner attrs =>
    obtain ⟨hinner, hattrs⟩ := List.forall_mem_cons.1 hc
    simp only [mapChildren, hinner, mapFields_congr hattrs]
  | memberAccess object property attrs =>
    obtain ⟨hobject, hrest⟩ := List.forall_mem_cons.1 hc
    obtain ⟨hproperty, hattrs⟩ := List.forall_mem_cons.1 hrest
    simp only [mapChildren, hobject, hproperty, mapFields_congr hattrs]
  | expressionStatement expression attrs =>
    obtain ⟨hexpression, hattrs⟩ := List.forall_mem_cons.1 hc
    simp only [mapChildren, hexpression, mapFields_congr hattrs]
  | block span context stmts => exact congrArg (block span context) (List.map_congr_left hc)
  | arrow params body attrs =>
    obtain ⟨hparams, hrest⟩ := List.forall_mem_append.1 hc
    obtain ⟨hbody, hattrs⟩ := List.forall_mem_cons.1 hrest
    simp only [mapChildren, List.map_congr_left hparams, hbody, mapFields_congr hattrs]
  | method key isStatic function attrs =>
    obtain ⟨hkey, hrest⟩ := List.forall_mem_cons.1 hc
    obtain ⟨hfunction, hattrs⟩ := List.forall_mem_cons.1 hrest
    simp only [mapChildren, hkey, hfunction, mapFields_congr hattrs]
  | classDef form name superClass members attrs =>
    obtain ⟨hfront, hattrs⟩ := List.forall_mem_append.1 hc
    obtain ⟨hname, hrest⟩ := List.forall_mem_cons.1 hfront
    obtain ⟨hsuper, hmembers⟩ := List.forall_mem_cons.1 hrest
    simp only [mapChildren, hname, hsuper, List.map_congr_left hmembers, mapFields_congr hattrs]

@[simp] theorem mapChildren_mapChildren (g h : Tree → Tree) (t : Tree) :
    (t.mapChildren g).mapChildren h = t.mapChildren (h ∘ g) := by
  cases t <;> simp [mapChildren]

@[simp] theorem mapChildren_id (t : Tree) : t.mapChildren id = t := by
  cases t <;> simp [mapChildren]

mutual

theorem holds_of_step {P : Tree → Prop} (step : ∀ t, (∀ c ∈ t.children, P c) → P t) :
    ∀ t, P t
  | leaf _ => step _ fun _ hc => nomatch hc
  | list items => step _ (holdsAll_of_step step items)
  | record fields => step _ (holdsFields_of_step step fields)
  | node _ fields => step _ (holdsFields_of_step step fields)
  | identifier _ attrs => step _ (holdsFields_of_step step attrs)
  | stringLiteral _ attrs => step _ (holdsFields_of_step step attrs)
  | parenthesized inner attrs =>
    step _ (List.forall_mem_cons.2 ⟨holds_of_step step inner, holdsFields_of_step step attrs⟩)
  | memberAccess object property attrs =>
    step _ (List.forall_mem_cons.2 ⟨holds_of_step step object,
      List.forall_mem_cons.2 ⟨holds_of_step step property, holdsFields_of_step step attrs⟩⟩)
  | expressionStatement expression attrs =>
    step _ (List.forall_mem_cons.2
      ⟨holds_of_step step expression, holdsFields_of_step step attrs⟩)
  | block _ _ stmts => step _ (holdsAll_of_step step stmts)
  | arrow params body attrs =>
    step _ (List.forall_mem_append.2 ⟨holdsAll_of_step step params,
      List.forall_mem_cons.2 ⟨holds_of_step step body, holdsFields_of_step step attrs⟩⟩)
  | method key _ function attrs =>
    step _ (List.forall_mem_cons.2 ⟨holds_of_step step key,
      List.forall_mem_cons.2 ⟨holds_of_step step function, holdsFields_of_step step attrs⟩⟩)
  | classDef _ name superClass members attrs =>
    step _ (List.forall_mem_append.2 ⟨List.forall_mem_cons.2 ⟨holds_of_step step name,
      List.forall_mem_cons.2 ⟨holds_of_step step superClass, holdsAll_of_step step members⟩⟩,
      holdsFields_of_step step attrs⟩)

theorem holdsAll_of_step {P : Tree → Prop} (step : ∀ t, (∀ c ∈ t.children, P c) → P t) :
    ∀ ts : List Tree, ∀ c ∈ ts, P c
  | [], _, hc => nomatch hc
  | t :: ts, c, hc =>
    List.forall_mem_cons.2 ⟨holds_of_step step t, holdsAll_of_step step ts⟩ c hc

theorem holdsFields_of_step {P : Tree → Prop} (step : ∀ t, (∀ c ∈ t.children, P c) → P t) :
    ∀ fields : List (String × Tree), ∀ c ∈ fields.map Prod.snd, P c
  | [], _, hc => nomatch hc
  | (_, t) :: rest, c, hc =>
    List.forall_mem_cons.2 ⟨holds_of_step step t, holdsFields_of_step step rest⟩ c hc

end

/-- A property that passes from the children of a node to the node holds of every tree. -/
@[elab_as_elim]
theorem inductionOnChildren {P : Tree → Prop} (t : Tree)
    (step : ∀ t, (∀ c ∈ t.children, P c) → P t) : P t := holds_of_step step t

/-- What the walk makes of a tree. -/
def after (f : Tree → Traced Tree) (t : Tree) : Tree := (t.traverse f).value

theorem value_traverseAll (f : Tree → Traced Tree) (ts : List Tree) :
    (traverseAll f ts).value = ts.map (after f) := by
  induction ts with
  | nil => rfl
  | cons t ts ih => simp [traverseAll, after, ih]

theorem events_traverseAll (f : Tree → Traced Tree) (ts : List Tree) :
    (traverseAll f ts).events = ts.flatMap fun t => (t.traverse f).events := by
  induction ts with
  | nil => rfl
  | cons t ts ih => simp [traverseAll, ih]

theorem wrapped_traverseAll (f : Tree → Traced Tree) (ts : List Tree) :
    (traverseAll f ts).wrapped = ts.any fun t => (t.traverse f).wrapped := by
  induction ts with
  | nil => rfl
  | cons t ts ih => simp [traverseAll, ih]

theorem value_traverseFields (f : Tree → Traced Tree) (fields : List (String × Tree)) :
    (traverseFields f fields).value = mapFields (after f) fields := by
  induction fields with
  | nil => rfl
  | cons field rest ih => simp [traverseFields, mapFields, after, ih]

theorem events_traverseFields (f : Tree → Traced Tree) (fields : List (String × Tree)) :
    (traverseFields f fields).events =
      (fields.map Prod.snd).flatMap fun t => (t.traverse f).events := by
  induction fields with
  | nil => rfl
  | cons field rest ih => simp [traverseFields, ih]

theorem wrapped_traverseFields (f : Tree → Traced Tree) (fields : List (String × Tree)) :
    (traverseFields f fields).wrapped =
      (fields.map Prod.snd).any fun t => (t.traverse f).wrapped := by
  induction fields with
  | nil => rfl
  | cons field rest ih => simp [traverseFields, ih]

/-- The walk is one step on a node whose children the walk has been over. -/
theorem after_eq (f : Tree → Traced Tree) (t : Tree) :
    t.after f = (f (t.mapChildren (after f))).value := by
  cases t <;> simp [after, traverse, mapChildren, value_traverseAll, value_traverseFields]

theorem events_traverse (f : Tree → Traced Tree) (t : Tree) :
    (t.traverse f).events = (t.children.flatMap fun c => (c.traverse f).events) ++
      (f (t.mapChildren (after f))).events := by
  cases t <;> simp [after, traverse, children, mapChildren, value_traverseAll,
    value_traverseFields, events_traverseAll, events_traverseFields]

theorem wrapped_traverse (f : Tree → Traced Tree) (t : Tree) :
    (t.traverse f).wrapped = ((t.children.any fun c => (c.traverse f).wrapped) ||
      (f (t.mapChildren (after f))).wrapped) := by
  cases t <;> simp [after, traverse, children, mapChildren, value_traverseAll,
    value_traverseFields, wrapped_traverseAll, wrapped_traverseFields, Bool.or_assoc]

theorem after_congr {f f' : Tree → Traced Tree} (h : ∀ t, (f t).value = (f' t).value)
    (t : Tree) : t.after f = t.after f' := by
  induction t using inductionOnChildren with
  | step t ih => rw [after_eq, after_eq f', mapChildren_congr ih, h]

theorem eq_iterate_after {α : Type} {read : Tree → α} (h : ∀ t, read (t.after f) = read t)
    (k : Nat) (t : Tree) : read ((after f)^[k] t) = read t := by
  induction k with
  | zero => rfl
  | succ k ih => rw [Function.iterate_succ_apply', h, ih]

mutual

/-- The nodes of a tree, each before what is below it. -/
def nodes : Tree → List Tree
  | leaf v => [leaf v]
  | list items => list items :: nodesAll items
  | record fields => record fields :: nodesFields fields
  | node kind fields => node kind fields :: nodesFields fields
  | identifier name attrs => identifier name attrs :: nodesFields attrs
  | stringLiteral value attrs => stringLiteral value attrs :: nodesFields attrs
  | parenthesized inner attrs => parenthesized inner attrs :: (nodes inner ++ nodesFields attrs)
  | memberAccess object property attrs =>
    memberAccess object property attrs :: (nodes object ++ nodes property ++ nodesFields attrs)
  | expressionStatement expression attrs =>
    expressionStatement expression attrs :: (nodes expression ++ nodesFields attrs)
  | block span context stmts => block span context stmts :: nodesAll stmts
  | arrow params body attrs =>
    arrow params body attrs :: (nodesAll params ++ nodes body ++ nodesFields attrs)
  | method key isStatic function attrs =>
    method key isStatic function attrs :: (nodes key ++ nodes function ++ nodesFields attrs)
  | classDef form name superClass members attrs =>
    classDef form name superClass members attrs ::
      (nodes name ++ nodes superClass ++ nodesAll members ++ nodesFields attrs)

def nodesAll : List Tree → List Tree
  | [] => []
  | t :: ts => nodes t ++ nodesAll ts

def nodesFields : List (String × Tree) → List Tree
  | [] => []
  | (_, t) :: rest => nodes t ++ nodesFields rest

end

theorem nodesAll_eq (ts : List Tree) : nodesAll ts = ts.flatMap nodes := by
  induction ts with
  | nil => rfl
  | cons t ts ih => simp [nodesAll, ih]

theorem nodesFields_eq (fields : List (String × Tree)) :
    nodesFields fields = (fields.map Prod.snd).flatMap nodes := by
  induction fields with
  | nil => rfl
  | cons field rest ih => simp [nodesFields, ih]

theorem nodes_eq (t : Tree) : t.nodes = t :: t.children.flatMap nodes := by
  cases t <;> simp [nodes, children, nodesAll_eq, nodesFields_eq]

theorem mem_nodes_self (t : Tree) : t ∈ t.nodes := by simp [nodes_eq t]

theorem mem_nodes_of_mem_children {t c u : Tree} (hc : c ∈ t.children) (hu : u ∈ c.nodes) :
    u ∈ t.nodes := by
  rw [nodes_eq]
  exact List.mem_cons_of_mem _ (List.mem_flatMap.2 ⟨c, hc, hu⟩)

/-- What `read` finds at the nodes of a tree, in their order. -/
def gather {α : Type} (read : Tree → List α) (t : Tree) : List α := t.nodes.flatMap read

theorem gather_eq {α : Type} (read : Tree → List α) (t : Tree) :
    t.gather read = read t ++ t.children.flatMap (gather read) := by
  rw [gather, nodes_eq, List.flatMap_cons, List.flatMap_assoc]
  rfl

/-- A walk whose step changes no node of the tree leaves the tree alone. -/
theorem after_eq_self {t : Tree} (h : ∀ n ∈ t.nodes, (f n).value = n) : t.after f = t := by
  induction t using inductionOnChildren with
  | step t ih =>
    have hm : t.mapChildren (after f) = t := by
      rw [mapChildren_congr (h := id) fun c hc =>
        ih c hc fun n hn => h n (mem_nodes_of_mem_children hc hn), mapChildren_id]
    rw [after_eq, hm, h t (mem_nodes_self t)]

theorem traverse_eq_pure {t : Tree} (h : ∀ n ∈ t.nodes, f n = pure n) :
    t.traverse f = pure t := by
  induction t using inductionOnChildren with
  | step t ih =>
    have hc : ∀ c ∈ t.children, c.traverse f = pure c :=
      fun c hc => ih c hc fun n hn => h n (mem_nodes_of_mem_children hc hn)
    have hm : t.mapChildren (after f) = t := by
      rw [mapChildren_congr (h := id) fun c hm => by simp [after, hc c hm], mapChildren_id]
    have ht : f t = pure t := h t (mem_nodes_self t)
    ext1
    · exact after_eq_self fun n hn => by rw [h n hn, value_pure]
    · rw [events_traverse, hm, ht]
      simp only [events_pure, List.append_nil, List.flatMap_eq_nil_iff]
      intro c hm
      rw [hc c hm, events_pure]
    · rw [wrapped_traverse, hm, ht]
      simp only [wrapped_pure, Bool.or_false, List.any_eq_false]
      intro c hm
      simp [hc c hm]

end RenderGuard.Tree
