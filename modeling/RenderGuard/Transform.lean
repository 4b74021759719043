import RenderGuard.Handler

/-! The whole transform: wrap the components, then bind the handler if any was wrapped. -/
namespace RenderGuard

/-- What a run leaves: the program, and whether it wrapped anything. The program stays wrapped where
the binding fails. -/
structure Outcome where
  program : Program
  result : Except HandlerError Bool

/-- A message for the host, at the place of the program it is about. -/
structure Diagnostic where
  message : String
  span : Span
  deriving DecidableEq

/-- What a run as a plugin leaves. -/
structure Compiled where
  program : Program
  diagnostics : List Diagnostic

namespace Program

def apply (p : Program) (options : Options) (context : Nat) : Traced Outcome := do
  let (q, wrapped) ← p.wrap.listen
  match ← q.bindHandler wrapped options context with
  | .ok bound => return ⟨bound, .ok wrapped⟩
  | .error e => return ⟨q, .error e⟩

/-- The finished program, or why there is none. -/
def transform (p : Program) (options : Options) : Traced (Except HandlerError Program) := do
  let outcome ← p.apply options 0
  return outcome.result.map fun _ => outcome.program

/-- The run of a compiler plugin, which gets its options as text and reports what fails. The
`context` is the host's for names that nothing binds. -/
def compile (p : Program) (text? : Option String) (context : Nat) : Traced Compiled := do
  let outcome ← p.apply (Options.ofText? text?) context
  match outcome.result with
  | .ok _ => return ⟨outcome.program, []⟩
  | .error e => return ⟨outcome.program, [⟨e.message, outcome.program.span⟩]⟩

end Program

end RenderGuard
