import RenderGuard.Json.Token

/-! Values, and reading one from its tokens. What is unfinished stands in a list of frames. -/
namespace RenderGuard.Json

inductive Value where
  | null
  | bool (b : Bool)
  | number (digits : List Char)
  | string (body : List Piece)
  | array (items : List Value)
  | object (members : List (List Piece × Value))

/-- An array or object whose end has not come yet. What it has so far is reversed; an object waits
for the value of `key`. -/
inductive Frame where
  | array (done : List Value)
  | object (done : List (List Piece × Value)) (key : List Piece)

/-- Where in a text the reading is: what may come next, inside which frames. -/
inductive State where
  | value (frames : List Frame)
  | firstItem (frames : List Frame)
  | firstKey (frames : List Frame)
  | nextKey (done : List (List Piece × Value)) (frames : List Frame)
  | colon (done : List (List Piece × Value)) (key : List Piece) (frames : List Frame)
  | after (v : Value) (frames : List Frame)

namespace State

/-- Reads the token that a value starts with. -/
def openValue? (frames : List Frame) : Token → Option State
  | .null => some (after .null frames)
  | .bool b => some (after (.bool b) frames)
  | .number digits => some (after (.number digits) frames)
  | .string body => some (after (.string body) frames)
  | .openArray => some (firstItem frames)
  | .openObject => some (firstKey frames)
  | _ => none

/-- Reads the token after a value: the end of the innermost frame, or a comma in it. -/
def closeValue? (v : Value) : List Frame → Token → Option State
  | .array done :: frames, .comma => some (value (.array (v :: done) :: frames))
  | .array done :: frames, .closeArray => some (after (.array (v :: done).reverse) frames)
  | .object done key :: frames, .comma => some (nextKey ((key, v) :: done) frames)
  | .object done key :: frames, .closeObject =>
    some (after (.object ((key, v) :: done).reverse) frames)
  | _, _ => none

def step? : State → Token → Option State
  | value frames, t => openValue? frames t
  | firstItem frames, .closeArray => some (after (.array []) frames)
  | firstItem frames, t => openValue? (.array [] :: frames) t
  | firstKey frames, .closeObject => some (after (.object []) frames)
  | firstKey frames, .string key => some (colon [] key frames)
  | nextKey done frames, .string key => some (colon done key frames)
  | colon done key frames, .colon => some (value (.object done key :: frames))
  | after v frames, t => closeValue? v frames t
  | _, _ => none

def run? (s : State) : List Token → Option State
  | [] => some s
  | t :: ts => (s.step? t).bind (run? · ts)

end State

namespace Value

def ofTokens? (ts : List Token) : Option Value :=
  match (State.value []).run? ts with
  | some (.after v []) => some v
  | _ => none

/-- The value that a text spells, if it spells one. -/
def read? (text : String) : Option Value := (tokens? text.toList).bind ofTokens?

end Value

end RenderGuard.Json
