import RenderGuard.Json.Value

/-! The options of a run, read from text. Text that cannot be read leaves every option unset. -/
namespace RenderGuard

structure Options where
  errorHandler : Option String
  deriving DecidableEq

namespace Options

open Json (Piece Value)

def unset : Options := ⟨none⟩

/-- The key of the option in an object. -/
def handlerKey : String := "errorHandler"

/-- The option as its value states it: a string or null. -/
def ofHandler? : Value → Option Options
  | .null => some unset
  | .string body => (Piece.decode body).map fun cs => ⟨some (String.ofList cs)⟩
  | _ => none

/-- The members of an object under their decoded keys; every key has to be text. -/
def keyed? : List (List Piece × Value) → Option (List (List Char × Value))
  | [] => some []
  | (key, v) :: rest => do
    return (← Piece.decode key, v) :: (← keyed? rest)

/-- An object names the option, at most once; an array holds it and nothing else. -/
def ofValue? : Value → Option Options
  | .array [] => some unset
  | .array [v] => ofHandler? v
  | .object members => do
    match (← keyed? members).filter (·.1 == handlerKey.toList) with
    | [] => some unset
    | [(_, v)] => ofHandler? v
    | _ => none
  | _ => none

def ofText (text : String) : Options := ((Value.read? text).bind ofValue?).getD unset

/-- The options that a host passes on, if it passes any. -/
def ofText? (text? : Option String) : Options := (text?.map ofText).getD unset

/-- The module that handles errors; an empty name names none. -/
def handler? (o : Options) : Option String := o.errorHandler.filter (!·.isEmpty)

end Options

end RenderGuard
