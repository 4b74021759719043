import RenderGuard.Json.Value

/-! The grammar of the texts that spell a value, apart from any way to read one. -/
namespace RenderGuard.Json

/-- What may stand between any two tokens. -/
def Blank (cs : List Char) : Prop := ∀ c ∈ cs, c ∈ [' ', '\t', '\n', '\r']

inductive HexDigit : Char → Nat → Prop where
  | lower {c : Char} {n : Nat} (h : "0123456789abcdef".toList[n]? = some c) : HexDigit c n
  | upper {c : Char} {n : Nat} (h : "0123456789ABCDEF".toList[n]? = some c) : HexDigit c n

/-- The letters that may follow a backslash, each with the character it stands for. -/
def shortEscapes : List (Char × Char) :=
  [('"', '"'), ('\\', '\\'), ('/', '/'), ('b', '\x08'), ('f', '\x0c'), ('n', '\n'), ('r', '\r'),
    ('t', '\t')]

/-- How one piece of a literal is written. -/
inductive Piece.Written : Piece → List Char → Prop where
  | plain {c : Char} (control : 0x20 ≤ c.toNat) (quote : c ≠ '"') (backslash : c ≠ '\\') :
      Written (.char c) [c]
  | short {c e : Char} (h : (c, e) ∈ shortEscapes) : Written (.char e) ['\\', c]
  | number {a b c d : Char} {k l m n : Nat} (ha : HexDigit a k) (hb : HexDigit b l)
      (hc : HexDigit c m) (hd : HexDigit d n) :
      Written (.unit (((k * 16 + l) * 16 + m) * 16 + n)) ['\\', 'u', a, b, c, d]

/-- What stands between the quotes. -/
inductive Body : List Piece → List Char → Prop where
  | nil : Body [] []
  | cons {p : Piece} {ps : List Piece} {w cs : List Char} (hp : p.Written w) (hps : Body ps cs) :
      Body (p :: ps) (w ++ cs)

inductive Literal : List Piece → List Char → Prop where
  | quoted {ps : List Piece} {cs : List Char} (h : Body ps cs) :
      Literal ps ('"' :: (cs ++ ['"']))

/-- The 16 bit units of a character. -/
def codeUnits (c : Char) : List Nat :=
  if c.toNat < 0x10000 then [c.toNat]
  else [0xD800 + (c.toNat - 0x10000) / 0x400, 0xDC00 + (c.toNat - 0x10000) % 0x400]

def Piece.units : Piece → List Nat
  | char c => codeUnits c
  | unit u => [u]

/-- A literal says a text that has the same code units. -/
def Says (body : List Piece) (text : List Char) : Prop :=
  body.flatMap Piece.units = text.flatMap codeUnits

def Digits (cs : List Char) : Prop := cs ≠ [] ∧ ∀ c ∈ cs, isDigit c = true

inductive Whole : List Char → Prop where
  | zero : Whole ['0']
  | digits {c : Char} {cs : List Char} (first : c ≠ '0') (h : Digits (c :: cs)) : Whole (c :: cs)

inductive Fraction : List Char → Prop where
  | absent : Fraction []
  | point {cs : List Char} (h : Digits cs) : Fraction ('.' :: cs)

inductive Exponent : List Char → Prop where
  | absent : Exponent []
  | power {e : Char} {sign cs : List Char} (he : e = 'e' ∨ e = 'E')
      (hs : sign = [] ∨ sign = ['+'] ∨ sign = ['-']) (h : Digits cs) :
      Exponent (e :: (sign ++ cs))

inductive Number : List Char → Prop where
  | parts {sign whole fraction exponent : List Char} (hs : sign = [] ∨ sign = ['-'])
      (hw : Whole whole) (hf : Fraction fraction) (he : Exponent exponent) :
      Number (sign ++ (whole ++ fraction ++ exponent))

/-- Texts in a row, with a comma between each two. -/
inductive Separated {α : Type} (P : α → List Char → Prop) : List α → List Char → Prop where
  | last {x : α} {cs : List Char} (h : P x cs) : Separated P [x] cs
  | more {x : α} {xs : List α} {cs ds : List Char} (h : P x cs) (hs : Separated P xs ds) :
      Separated P (x :: xs) (cs ++ ',' :: ds)

mutual

/-- How a value is written. -/
inductive Value.Written : Value → List Char → Prop where
  | null : Value.Written .null ['n', 'u', 'l', 'l']
  | yes : Value.Written (.bool true) ['t', 'r', 'u', 'e']
  | no : Value.Written (.bool false) ['f', 'a', 'l', 's', 'e']
  | number {digits : List Char} (h : Number digits) : Value.Written (.number digits) digits
  | string {body : List Piece} {w : List Char} (h : Literal body w) : Value.Written (.string body) w
  | emptyArray {ws : List Char} (h : Blank ws) : Value.Written (.array []) ('[' :: (ws ++ [']']))
  | array {items : List Value} {cs : List Char} (h : Separated Element items cs) :
      Value.Written (.array items) ('[' :: (cs ++ [']']))
  | emptyObject {ws : List Char} (h : Blank ws) : Value.Written (.object []) ('{' :: (ws ++ ['}']))
  | object {members : List (List Piece × Value)} {cs : List Char}
      (h : Separated Member members cs) : Value.Written (.object members) ('{' :: (cs ++ ['}']))

/-- A value with blanks around it. -/
inductive Element : Value → List Char → Prop where
  | padded {v : Value} {before w after : List Char} (hb : Blank before) (h : v.Written w)
      (ha : Blank after) : Element v (before ++ w ++ after)

/-- A key with blanks around it, a colon and the value of the key. -/
inductive Member : List Piece × Value → List Char → Prop where
  | keyed {key : List Piece} {v : Value} {before w after cs : List Char} (hb : Blank before)
      (hk : Literal key w) (ha : Blank after) (hv : Element v cs) :
      Member (key, v) (before ++ w ++ after ++ ':' :: cs)

end

end RenderGuard.Json
