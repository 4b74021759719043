import RenderGuard.Transform

/-! Runs of steps over one kept program, with a record of whether wrapping has changed it. -/
namespace RenderGuard

structure Session where
  program : Program
  wrapped : Bool

/-- One thing to do to the kept program. Only `wrap` and `reset` change the record, and only `bind`
reads it. -/
inductive Step where
  | apply (options : Options) (context : Nat)
  | wrap
  | bind (options : Options) (context : Nat)
  | compile (text? : Option String) (context : Nat)
  | reset

/-- What a step says of itself. -/
inductive Reply where
  | done
  | applied (wrapped : Bool)
  | failed (e : HandlerError)
  | compiled (diagnostics : List Diagnostic)
  deriving DecidableEq

namespace Session

def start (p : Program) : Session := ⟨p, false⟩

def step (s : Session) : Step → Traced (Session × Reply)
  | .apply options context => do
    let outcome ← s.program.apply options context
    let reply := match outcome.result with
      | .ok wrapped => .applied wrapped
      | .error e => .failed e
    return ({ s with program := outcome.program }, reply)
  | .wrap => do
    let (program, wrapped) ← s.program.wrap.listen
    return (⟨program, s.wrapped || wrapped⟩, .done)
  | .bind options context => do
    match ← s.program.bindHandler s.wrapped options context with
    | .ok p => return ({ s with program := p }, .done)
    | .error e => return (s, .failed e)
  | .compile text? context => do
    let compiled ← s.program.compile text? context
    return ({ s with program := compiled.program }, .compiled compiled.diagnostics)
  | .reset => return ({ s with wrapped := false }, .done)

/-- Each step in turn, with the session it leaves. -/
def run (s : Session) : List Step → List (Traced (Session × Reply))
  | [] => []
  | a :: as => s.step a :: run (s.step a).value.1 as

end Session

end RenderGuard
