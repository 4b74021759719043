import RenderGuard.Traced
import RenderGuard.Tree.Basic

/-! The walk over a tree that changes children before the node they belong to. -/
namespace RenderGuard.Tree

mutual

/-- `f` at every node, children first. -/
def traverse (f : Tree → Traced Tree) : Tree → Traced Tree
  | leaf v => f (leaf v)
  | list items => do
    f (list (← traverseAll f items))
  | record fields => do
    f (record (← traverseFields f fields))
  | node kind fields => do
    f (node kind (← traverseFields f fields))
  | identifier name attrs => do
    f (identifier name (← traverseFields f attrs))
  | stringLiteral value attrs => do
    f (stringLiteral value (← traverseFields f attrs))
  | parenthesized inner attrs => do
    f (parenthesized (← traverse f inner) (← traverseFields f attrs))
  | memberAccess object property attrs => do
    f (memberAccess (← traverse f object) (← traverse f property) (← traverseFields f attrs))
  | expressionStatement expression attrs => do
    f (expressionStatement (← traverse f expression) (← traverseFields f attrs))
  | block span context stmts => do
    f (block span context (← traverseAll f stmts))
  | arrow params body attrs => do
    f (arrow (← traverseAll f params) (← traverse f body) (← traverseFields f attrs))
  | method key isStatic function attrs => do
    f (method (← traverse f key) isStatic (← traverse f function) (← traverseFields f attrs))
  | classDef form name superClass members attrs => do
    f (classDef form (← traverse f name) (← traverse f superClass) (← traverseAll f members)
      (← traverseFields f attrs))

def traverseAll (f : Tree → Traced Tree) : List Tree → Traced (List Tree)
  | [] => pure []
  | t :: ts => do
    return (← traverse f t) :: (← traverseAll f ts)

def traverseFields (f : Tree → Traced Tree) :
    List (String × Tree) → Traced (List (String × Tree))
  | [] => pure []
  | (name, t) :: rest => do
    return (name, ← traverse f t) :: (← traverseFields f rest)

end

end RenderGuard.Tree
