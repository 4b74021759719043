import RenderGuard.Component
import RenderGuard.Tree.Traverse

/-! Wrapping a component, so that what its render throws goes to the handler. -/
namespace RenderGuard

open Traced (emit noteWrapped)

namespace Tree

/-- The member under another name; only an unquoted name changes. -/
def renamed (name : String) : Tree → Tree
  | method (identifier _ nameAttrs) isStatic function attrs =>
    method (identifier name nameAttrs) isStatic function attrs
  | member => member

/-- The members of a class whose render, the one at `i`, runs behind a new one. -/
def guardMembers (i : Nat) (members : List Tree) : List Tree :=
  Fragment.delegatingRender :: members.modify i (renamed Fragment.marker)

/-- The body of an arrow, guarded. Only a block has a place in the source text to keep. -/
def guardBody : Tree → Tree
  | block span context stmts => block span context [Fragment.guardedBody stmts]
  | expression => block .dummy 0 [Fragment.guardedBody [Fragment.returned expression]]

/-- Wraps the node if it is a class component that is not wrapped yet and has a render. -/
def wrapClass : Tree → Traced Tree
  | t@(classDef form name superClass members attrs) =>
    if Component.isBase superClass then
      match Component.locateRender members with
      | ⟨_, true⟩ => do
        emit (.alreadyWrapped (Component.identifierName? name))
        return t
      | ⟨some i, false⟩ => do
        noteWrapped
        emit (.wrappedClass (Component.identifierName? name))
        return classDef form name superClass (guardMembers i members) attrs
      | ⟨none, false⟩ => return t
    else
      return t
  | t => return t

/-- Wraps the node if it is an arrow component. -/
def wrapArrow : Tree → Traced Tree
  | t@(arrow params body attrs) =>
    if Component.isPropsOnly params then do
      noteWrapped
      emit .wrappedArrow
      return arrow params (guardBody body) attrs
    else
      return t
  | t => return t

def wrapNode (t : Tree) : Traced Tree := do
  wrapArrow (← wrapClass t)

/-- Wraps every component of the tree, inner ones first. -/
def wrap (t : Tree) : Traced Tree := t.traverse wrapNode

def wrapAll (ts : List Tree) : Traced (List Tree) := traverseAll wrapNode ts

end Tree

end RenderGuard
