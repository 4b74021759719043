import RenderGuard.Fragment

/-! What counts as a component, read off the tree alone: a class by what it extends, an arrow by its
parameters. -/
namespace RenderGuard

open Fragment (marker renderName)

namespace Tree

/-- The expression inside all the parentheses around it. -/
def unparenthesized : Tree → Tree
  | parenthesized inner _ => inner.unparenthesized
  | t => t

end Tree

namespace Component

def isBaseName (name : String) : Bool := name == "Component" || name == "PureComponent"

/-- Whether a class that extends `superClass` is a component. Parentheses matter only inside a
member access. -/
def isBase (superClass : Tree) : Bool :=
  match superClass.unparenthesized with
  | .identifier name _ => isBaseName name
  | .memberAccess (.identifier object _) (.identifier property _) _ =>
    object == "React" && isBaseName property
  | _ => false

/-- A method, of any kind, that is named without quotes. -/
def isNamed (name : String) : Tree → Bool
  | .method (.identifier key _) _ _ _ => key == name
  | _ => false

/-- A method, of any kind, whose name is quoted. -/
def isQuoted (name : String) : Tree → Bool
  | .method (.stringLiteral key _) _ _ _ => key == name
  | _ => false

/-- Whether a member shows that its class is wrapped already. -/
def isMarker (member : Tree) : Bool := isNamed marker member || isQuoted marker member

/-- The index of the last element that satisfies `p`. -/
def lastIndex? {α : Type} (p : α → Bool) : List α → Option Nat
  | [] => none
  | a :: as =>
    match lastIndex? p as with
    | some i => some (i + 1)
    | none => if p a then some 0 else none

/-- Where the members of a class have its render. -/
structure RenderLookup where
  renderIndex : Option Nat
  alreadyWrapped : Bool
  deriving DecidableEq

/-- The last render wins. Every member counts for the index. -/
def locateRender (members : List Tree) : RenderLookup where
  renderIndex := lastIndex? (isNamed renderName) members
  alreadyWrapped := members.any isMarker

/-- An arrow is a component if it has one parameter, a plain `props`. -/
def isPropsOnly : List Tree → Bool
  | [.identifier name _] => name == "props"
  | _ => false

/-- The name of an identifier. -/
def identifierName? : Tree → Option String
  | .identifier name _ => some name
  | _ => none

end Component

end RenderGuard
