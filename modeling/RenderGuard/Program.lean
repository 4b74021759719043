import RenderGuard.Wrap

/-! Whole programs: the items at the top, after the directives that open them. -/
namespace RenderGuard

inductive SourceKind where
  | module
  | script
  deriving DecidableEq

structure Program where
  kind : SourceKind
  span : Span
  interpreter : Option String
  body : List Tree

namespace Program

/-- A statement that is a string and nothing else. -/
def isDirective : Tree → Bool
  | .expressionStatement (.stringLiteral _ _) _ => true
  | _ => false

def directives (p : Program) : List Tree := p.body.takeWhile isDirective

/-- The items from the first one on that is no directive. -/
def items (p : Program) : List Tree := p.body.dropWhile isDirective

/-- The program with one item more, right after its directives. -/
def insert (p : Program) (item : Tree) : Program :=
  { p with body := p.directives ++ item :: p.items }

/-- Wraps every component of the program. -/
def wrap (p : Program) : Traced Program := do
  return { p with body := ← Tree.wrapAll p.body }

end Program

end RenderGuard
