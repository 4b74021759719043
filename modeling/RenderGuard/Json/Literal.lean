/-! String literals, read into pieces first: an escaped code unit may be half of a pair. -/
namespace RenderGuard.Json

/-- One part of a string literal: a character, or a code unit escaped by its number. -/
inductive Piece where
  | char (c : Char)
  | unit (u : Nat)
  deriving DecidableEq

namespace Piece

def isHigh (u : Nat) : Bool := 0xD800 ≤ u && u < 0xDC00

def isLow (u : Nat) : Bool := 0xDC00 ≤ u && u < 0xE000

/-- The character that a high and a low code unit stand for together. -/
def pair (high low : Nat) : Char := Char.ofNat (0x10000 + (high - 0xD800) * 0x400 + (low - 0xDC00))

/-- The text of a literal, unless one half of a pair stands alone in it. -/
def decode : List Piece → Option (List Char)
  | [] => some []
  | char c :: rest => (decode rest).map (c :: ·)
  | unit u :: rest =>
    if isHigh u then
      match rest with
      | unit v :: rest => if isLow v then (decode rest).map (pair u v :: ·) else none
      | _ => none
    else if isLow u then none
    else (decode rest).map (Char.ofNat u :: ·)

end Piece

def hexDigit? (c : Char) : Option Nat :=
  if '0' ≤ c && c ≤ '9' then some (c.toNat - '0'.toNat)
  else if 'a' ≤ c && c ≤ 'f' then some (c.toNat - 'a'.toNat + 10)
  else if 'A' ≤ c && c ≤ 'F' then some (c.toNat - 'A'.toNat + 10)
  else none

def codeUnit? (a b c d : Char) : Option Nat := do
  return (((← hexDigit? a) * 16 + (← hexDigit? b)) * 16 + (← hexDigit? c)) * 16 + (← hexDigit? d)

/-- The character that a backslash in front of `c` makes of it. -/
def escaped? (c : Char) : Option Char :=
  match c with
  | '"' | '\\' | '/' => some c
  | 'b' => some '\x08'
  | 'f' => some '\x0c'
  | 'n' => some '\n'
  | 'r' => some '\r'
  | 't' => some '\t'
  | _ => none

/-- The rest of a literal after the reversed `done`, and the text after its closing quote. -/
def pieces? (done : List Piece) : List Char → Option (List Piece × List Char)
  | [] => none
  | '"' :: rest => some (done.reverse, rest)
  | '\\' :: 'u' :: a :: b :: c :: d :: rest =>
    match codeUnit? a b c d with
    | some u => pieces? (.unit u :: done) rest
    | none => none
  | '\\' :: c :: rest =>
    match escaped? c with
    | some e => pieces? (.char e :: done) rest
    | none => none
  | c :: rest => if c.toNat < 0x20 || c == '\\' then none else pieces? (.char c :: done) rest

theorem length_lt_of_pieces? {done ps : List Piece} {cs rest : List Char}
    (h : pieces? done cs = some (ps, rest)) : rest.length < cs.length := by
  fun_induction pieces? done cs <;> simp_all <;> omega

end RenderGuard.Json
