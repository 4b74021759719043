/-! What a run reports: one event for each component it wraps or finds wrapped, and one for the
binding of the handler. -/
namespace RenderGuard

inductive Event where
  | wrappedClass (name : Option String)
  | alreadyWrapped (name : Option String)
  | wrappedArrow
  | boundHandler (specifier : String)
  deriving DecidableEq

inductive Level where
  | debug
  | trace
  deriving DecidableEq

namespace Event

def level : Event → Level
  | alreadyWrapped _ => .trace
  | _ => .debug

def message : Event → String
  | wrappedClass _ => "wrapped class component render"
  | alreadyWrapped _ => "class component already wrapped"
  | wrappedArrow => "wrapped arrow function component"
  | boundHandler _ => "injected render error handler binding"

/-- The class an event is about. -/
def component? : Event → Option String
  | wrappedClass name | alreadyWrapped name => some (name.getD "<anonymous>")
  | _ => none

/-- The module an event is about. -/
def specifier? : Event → Option String
  | boundHandler specifier => some specifier
  | _ => none

end Event

end RenderGuard
