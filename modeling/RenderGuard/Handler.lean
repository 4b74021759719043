import RenderGuard.Options
import RenderGuard.Program

/-! Binding the handler at the top of a program that calls it. -/
namespace RenderGuard

/-- Why a program cannot be finished. -/
inductive HandlerError where
  | missing
  deriving DecidableEq

def HandlerError.message : HandlerError → String
  | .missing =>
    "[babel-plugin-transform-react-ssr-try-catch] You must define \"errorHandler\" property"

/-- Binds the handler if it is needed; then the options have to name one. The `context` is that of
the `require` in the binding. -/
def Program.bindHandler (p : Program) (needed : Bool) (options : Options) (context : Nat) :
    Traced (Except HandlerError Program) :=
  if needed then
    match options.handler? with
    | some specifier => do
      Traced.emit (.boundHandler specifier)
      return .ok (p.insert (Fragment.binding specifier context))
    | none => return .error .missing
  else
    return .ok p

end RenderGuard
