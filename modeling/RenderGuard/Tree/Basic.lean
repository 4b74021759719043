/-! Programs as trees. Only the nodes that wrapping reads or writes have a form of their own. -/
namespace RenderGuard

/-- A range of the source text. -/
structure Span where
  start : Nat
  stop : Nat
  deriving DecidableEq

/-- The span of a node that no source text stands for. -/
def Span.dummy : Span := ⟨0, 0⟩

/-- A field without nodes below it. A number keeps the digits it was written with. -/
inductive Leaf where
  | null
  | bool (b : Bool)
  | number (literal : String)
  | text (s : String)
  | span (s : Span)
  | context (n : Nat)
  deriving DecidableEq

inductive ClassForm where
  | declaration
  | expression
  deriving DecidableEq

/-- A node and what is below it. Fields without a place of their own in a form are its `attrs`;
`leaf null` stands for an absent node. -/
inductive Tree where
  | leaf (v : Leaf)
  | list (items : List Tree)
  | record (fields : List (String × Tree))
  | node (kind : String) (fields : List (String × Tree))
  | identifier (name : String) (attrs : List (String × Tree))
  | stringLiteral (value : String) (attrs : List (String × Tree))
  | parenthesized (inner : Tree) (attrs : List (String × Tree))
  | memberAccess (object property : Tree) (attrs : List (String × Tree))
  | expressionStatement (expression : Tree) (attrs : List (String × Tree))
  | block (span : Span) (context : Nat) (stmts : List Tree)
  | arrow (params : List Tree) (body : Tree) (attrs : List (String × Tree))
  | method (key : Tree) (isStatic : Bool) (function : Tree) (attrs : List (String × Tree))
  | classDef (form : ClassForm) (name superClass : Tree) (members : List Tree)
      (attrs : List (String × Tree))

end RenderGuard
