import RenderGuard.Proofs.LocalPass

/-! Paths into a tree, as lists of edges from the top. Every node is at the end of one. -/
namespace RenderGuard

/-- Where below a node a child stands: in which field, and at which index of a list. A field without
a place of its own goes by its name as well. -/
inductive Edge where
  | item (i : Nat)
  | field (i : Nat) (name : String)
  | inner
  | object
  | property
  | expression
  | stmt (i : Nat)
  | param (i : Nat)
  | body
  | key
  | function
  | name
  | superClass
  | member (i : Nat)
  deriving DecidableEq

abbrev Path := List Edge

namespace Tree

variable {f : Tree → Traced Tree} {t c : Tree} {fields : List (String × Tree)}

/-- The field at an index, if it has this name. -/
def field? (fields : List (String × Tree)) (i : Nat) (name : String) : Option Tree :=
  fields[i]?.bind fun field => if field.1 = name then some field.2 else none

/-- The child at an edge. -/
def child? : Tree → Edge → Option Tree
  | list items, .item i => items[i]?
  | record fields, .field i name => field? fields i name
  | node _ fields, .field i name => field? fields i name
  | identifier _ attrs, .field i name => field? attrs i name
  | stringLiteral _ attrs, .field i name => field? attrs i name
  | parenthesized inner _, .inner => some inner
  | parenthesized _ attrs, .field i name => field? attrs i name
  | memberAccess object _ _, .object => some object
  | memberAccess _ property _, .property => some property
  | memberAccess _ _ attrs, .field i name => field? attrs i name
  | expressionStatement expression _, .expression => some expression
  | expressionStatement _ attrs, .field i name => field? attrs i name
  | block _ _ stmts, .stmt i => stmts[i]?
  | arrow params _ _, .param i => params[i]?
  | arrow _ body _, .body => some body
  | arrow _ _ attrs, .field i name => field? attrs i name
  | method key _ _ _, .key => some key
  | method _ _ function _, .function => some function
  | method _ _ _ attrs, .field i name => field? attrs i name
  | classDef _ name _ _ _, .name => some name
  | classDef _ _ superClass _ _, .superClass => some superClass
  | classDef _ _ _ members _, .member i => members[i]?
  | classDef _ _ _ _ attrs, .field i name => field? attrs i name
  | _, _ => none

/-- The node at the end of a path. -/
def at? (t : Tree) : Path → Option Tree
  | [] => some t
  | e :: a => (t.child? e).bind fun c => c.at? a

@[simp] theorem at?_nil (t : Tree) : t.at? [] = some t := rfl

theorem at?_cons (t : Tree) (e : Edge) (a : Path) :
    t.at? (e :: a) = (t.child? e).bind fun c => c.at? a := rfl

theorem at?_append (t : Tree) (a b : Path) : t.at? (a ++ b) = (t.at? a).bind fun s => s.at? b := by
  induction a generalizing t with
  | nil => rfl
  | cons e a ih =>
    rw [List.cons_append, at?_cons, at?_cons]
    cases t.child? e with
    | none => rfl
    | some c => exact ih c

theorem field?_mapFields (g : Tree → Tree) (fields : List (String × Tree)) (i : Nat)
    (name : String) : field? (mapFields g fields) i name = (field? fields i name).map g := by
  rw [field?, field?, mapFields, List.getElem?_map]
  cases fields[i]? with
  | none => rfl
  | some field =>
    simp only [Option.map_some, Option.bind_some]
    split <;> rfl

theorem child?_mapChildren (g : Tree → Tree) (t : Tree) (e : Edge) :
    (t.mapChildren g).child? e = (t.child? e).map g := by
  cases t <;> cases e <;> simp [mapChildren, child?, field?_mapFields]

theorem exists_field?_of_mem (h : c ∈ fields.map Prod.snd) :
    ∃ i name, field? fields i name = some c := by
  obtain ⟨field, hm, rfl⟩ := List.mem_map.1 h
  obtain ⟨i, hi⟩ := List.mem_iff_getElem?.1 hm
  exact ⟨i, field.1, by simp [field?, hi]⟩

theorem exists_child?_of_mem_children (h : c ∈ t.children) : ∃ e, t.child? e = some c := by
  have hfield : ∀ attrs : List (String × Tree), c ∈ attrs.map Prod.snd →
      (∀ i name, t.child? (.field i name) = field? attrs i name) → ∃ e, t.child? e = some c := by
    intro attrs hc he
    obtain ⟨i, name, hi⟩ := exists_field?_of_mem hc
    exact ⟨.field i name, (he i name).trans hi⟩
  have hindex : ∀ (ts : List Tree) (edge : Nat → Edge), c ∈ ts →
      (∀ i, t.child? (edge i) = ts[i]?) → ∃ e, t.child? e = some c := by
    intro ts edge hc he
    obtain ⟨i, hi⟩ := List.mem_iff_getElem?.1 hc
    exact ⟨edge i, (he i).trans hi⟩
  cases t with
  | leaf v => cases h
  | list items => exact hindex items .item h fun _ => rfl
  | record fields => exact hfield fields h fun _ _ => rfl
  | node kind fields => exact hfield fields h fun _ _ => rfl
  | identifier name attrs => exact hfield attrs h fun _ _ => rfl
  | stringLiteral value attrs => exact hfield attrs h fun _ _ => rfl
  | parenthesized inner attrs =>
    rcases List.mem_cons.1 h with rfl | h
    · exact ⟨.inner, rfl⟩
    · exact hfield attrs h fun _ _ => rfl
  | memberAccess object property attrs =>
    rcases List.mem_cons.1 h with rfl | h
    · exact ⟨.object, rfl⟩
    rcases List.mem_cons.1 h with rfl | h
    · exact ⟨.property, rfl⟩
    · exact hfield attrs h fun _ _ => rfl
  | expressionStatement expression attrs =>
    rcases List.mem_cons.1 h with rfl | h
    · exact ⟨.expression, rfl⟩
    · exact hfield attrs h fun _ _ => rfl
  | block span context stmts => exact hindex stmts .stmt h fun _ => rfl
  | arrow params body attrs =>
    rcases List.mem_append.1 h with h | h
    · exact hindex params .param h fun _ => rfl
    rcases List.mem_cons.1 h with rfl | h
    · exact ⟨.body, rfl⟩
    · exact hfield attrs h fun _ _ => rfl
  | method key isStatic function attrs =>
    rcases List.mem_cons.1 h with rfl | h
    · exact ⟨.key, rfl⟩
    rcases List.mem_cons.1 h with rfl | h
    · exact ⟨.function, rfl⟩
    · exact hfield attrs h fun _ _ => rfl
  | classDef form name superClass members attrs =>
    rcases List.mem_append.1 h with h | h
    · rcases List.mem_cons.1 h with rfl | h
      · exact ⟨.name, rfl⟩
      rcases List.mem_cons.1 h with rfl | h
      · exact ⟨.superClass, rfl⟩
      · exact hindex members .member h fun _ => rfl
    · exact hfield attrs h fun _ _ => rfl

theorem exists_at?_of_mem_nodes {u : Tree} (h : u ∈ t.nodes) : ∃ a, t.at? a = some u := by
  induction t using inductionOnChildren with
  | step t ih =>
    rw [nodes_eq, List.mem_cons, List.mem_flatMap] at h
    rcases h with rfl | ⟨c, hc, hu⟩
    · exact ⟨[], rfl⟩
    · obtain ⟨e, he⟩ := exists_child?_of_mem_children hc
      obtain ⟨a, ha⟩ := ih c hc hu
      exact ⟨e :: a, by rw [at?_cons, he, Option.bind_some, ha]⟩

/-- The type of a node; what has none is a leaf, a list or a record. -/
def kind : Tree → String
  | leaf _ => "leaf"
  | list _ => "list"
  | record _ => "record"
  | node kind _ => kind
  | identifier .. => "Identifier"
  | stringLiteral .. => "StringLiteral"
  | parenthesized .. => "ParenthesisExpression"
  | memberAccess .. => "MemberExpression"
  | expressionStatement .. => "ExpressionStatement"
  | block .. => "BlockStatement"
  | arrow .. => "ArrowFunctionExpression"
  | method .. => "ClassMethod"
  | classDef form .. =>
    match form with
    | .declaration => "ClassDeclaration"
    | .expression => "ClassExpression"

def leaf? : Tree → Option Leaf
  | leaf v => some v
  | _ => none

/-- The fields that are leaves. -/
def leaves (fields : List (String × Tree)) : List (String × Leaf) :=
  fields.filterMap fun field => field.2.leaf?.map fun v => (field.1, v)

/-- The fields of a node without nodes below them. -/
def scalars : Tree → List (String × Leaf)
  | leaf v => [("", v)]
  | list _ => []
  | record fields => leaves fields
  | node _ fields => leaves fields
  | identifier name attrs => ("value", .text name) :: leaves attrs
  | stringLiteral value attrs => ("value", .text value) :: leaves attrs
  | parenthesized _ attrs => leaves attrs
  | memberAccess _ _ attrs => leaves attrs
  | expressionStatement _ attrs => leaves attrs
  | block span context _ => [("span", .span span), ("ctxt", .context context)]
  | arrow _ _ attrs => leaves attrs
  | method _ isStatic _ attrs => ("isStatic", .bool isStatic) :: leaves attrs
  | classDef _ name superClass _ attrs =>
    leaves (("identifier", name) :: ("superClass", superClass) :: attrs)

namespace LocalPass

theorem kind_after (h : LocalPass f) (t : Tree) : (t.after f).kind = t.kind :=
  h.eq_after kind (fun t => by cases t <;> rfl) (fun _ _ _ _ => rfl)
    (fun _ _ _ _ _ _ => rfl) t

theorem leaf?_after (h : LocalPass f) (t : Tree) : (t.after f).leaf? = t.leaf? :=
  h.eq_after leaf? (fun t => by cases t <;> rfl) (fun _ _ _ _ => rfl)
    (fun _ _ _ _ _ _ => rfl) t

theorem leaves_mapFields (h : LocalPass f) (fields : List (String × Tree)) :
    leaves (mapFields (after f) fields) = leaves fields := by
  simp only [leaves, mapFields, List.filterMap_map, Function.comp_def, h.leaf?_after]

theorem scalars_after (h : LocalPass f) (t : Tree) : (t.after f).scalars = t.scalars := by
  apply h.eq_after scalars
  · intro t
    cases t with
    | classDef form name superClass members attrs =>
      exact h.leaves_mapFields (("identifier", name) :: ("superClass", superClass) :: attrs)
    | _ => simp only [mapChildren, scalars, h.leaves_mapFields]
  · intros
    rfl
  · intros
    rfl

end LocalPass

end Tree

end RenderGuard
