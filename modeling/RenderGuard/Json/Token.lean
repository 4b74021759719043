import RenderGuard.Json.Literal

/-! The tokens of a text: what is left of it without the blanks in between. -/
namespace RenderGuard.Json

inductive Token where
  | openObject
  | closeObject
  | openArray
  | closeArray
  | colon
  | comma
  | null
  | bool (b : Bool)
  | number (digits : List Char)
  | string (body : List Piece)
  deriving DecidableEq

def isBlank (c : Char) : Bool := c == ' ' || c == '\t' || c == '\n' || c == '\r'

def isDigit (c : Char) : Bool := '0' ≤ c && c ≤ '9'

/-- At least one digit, and the text after the last one. -/
def digits? (cs : List Char) : Option (List Char × List Char) :=
  match cs.takeWhile isDigit with
  | [] => none
  | ds => some (ds, cs.dropWhile isDigit)

/-- A whole number; a zero in front ends it. -/
def whole? : List Char → Option (List Char × List Char)
  | '0' :: rest => some (['0'], rest)
  | cs => digits? cs

def fraction? : List Char → Option (List Char × List Char)
  | '.' :: rest => (digits? rest).map fun (ds, rest) => ('.' :: ds, rest)
  | cs => some ([], cs)

def exponentSign : List Char → List Char × List Char
  | '+' :: rest => (['+'], rest)
  | '-' :: rest => (['-'], rest)
  | cs => ([], cs)

def exponent? : List Char → Option (List Char × List Char)
  | 'e' :: rest => digitsAfter 'e' rest
  | 'E' :: rest => digitsAfter 'E' rest
  | cs => some ([], cs)
where
  digitsAfter (e : Char) (cs : List Char) : Option (List Char × List Char) :=
    (digits? (exponentSign cs).2).map fun (ds, rest) => (e :: (exponentSign cs).1 ++ ds, rest)

def unsigned? (cs : List Char) : Option (List Char × List Char) := do
  let (whole, cs) ← whole? cs
  let (fraction, cs) ← fraction? cs
  let (exponent, cs) ← exponent? cs
  return (whole ++ fraction ++ exponent, cs)

def number? : List Char → Option (List Char × List Char)
  | '-' :: rest => (unsigned? rest).map fun (ds, rest) => ('-' :: ds, rest)
  | cs => unsigned? cs

theorem eq_append_of_digits? {cs ds rest : List Char} (h : digits? cs = some (ds, rest)) :
    cs = ds ++ rest ∧ ds ≠ [] := by
  simp only [digits?] at h
  split at h
  · cases h
  · rename_i hne
    cases h
    exact ⟨List.takeWhile_append_dropWhile.symm, hne⟩

theorem eq_append_of_whole? {cs ds rest : List Char} (h : whole? cs = some (ds, rest)) :
    cs = ds ++ rest ∧ ds ≠ [] := by
  simp only [whole?] at h
  split at h
  · cases h
    simp
  · exact eq_append_of_digits? h

theorem eq_append_of_fraction? {cs ds rest : List Char} (h : fraction? cs = some (ds, rest)) :
    cs = ds ++ rest := by
  simp only [fraction?] at h
  split at h
  · obtain ⟨⟨es, tail⟩, hd, he⟩ := Option.map_eq_some_iff.1 h
    cases he
    simp [(eq_append_of_digits? hd).1]
  · cases h
    rfl

theorem exponentSign_append (cs : List Char) :
    (exponentSign cs).1 ++ (exponentSign cs).2 = cs := by
  unfold exponentSign
  split <;> rfl

theorem eq_append_of_digitsAfter {e : Char} {cs ds rest : List Char}
    (h : exponent?.digitsAfter e cs = some (ds, rest)) : e :: cs = ds ++ rest := by
  obtain ⟨⟨es, tail⟩, hd, he⟩ := Option.map_eq_some_iff.1 h
  cases he
  have hs := exponentSign_append cs
  rw [(eq_append_of_digits? hd).1] at hs
  exact congrArg (e :: ·) (by simpa using hs.symm)

theorem eq_append_of_exponent? {cs ds rest : List Char} (h : exponent? cs = some (ds, rest)) :
    cs = ds ++ rest := by
  simp only [exponent?] at h
  split at h
  · exact eq_append_of_digitsAfter h
  · exact eq_append_of_digitsAfter h
  · cases h
    rfl

theorem eq_append_of_unsigned? {cs ds rest : List Char} (h : unsigned? cs = some (ds, rest)) :
    cs = ds ++ rest ∧ ds ≠ [] := by
  simp only [unsigned?, Option.bind_eq_bind, Option.bind_eq_some_iff, Prod.exists] at h
  obtain ⟨whole, cs₁, hw, fraction, cs₂, hf, exponent, cs₃, he, hr⟩ := h
  cases hr
  obtain ⟨hw, hne⟩ := eq_append_of_whole? hw
  simp [hw, eq_append_of_fraction? hf, eq_append_of_exponent? he, hne]

/-- A number is read from the front of the text and nothing of it is lost. -/
theorem eq_append_of_number? {cs ds rest : List Char} (h : number? cs = some (ds, rest)) :
    cs = ds ++ rest ∧ ds ≠ [] := by
  simp only [number?] at h
  split at h
  · obtain ⟨⟨es, tail⟩, hd, he⟩ := Option.map_eq_some_iff.1 h
    cases he
    simp [(eq_append_of_unsigned? hd).1]
  · exact eq_append_of_unsigned? h

/-- The token that a text starts with, and the text after it. -/
def token? : List Char → Option (Token × List Char)
  | '{' :: rest => some (.openObject, rest)
  | '}' :: rest => some (.closeObject, rest)
  | '[' :: rest => some (.openArray, rest)
  | ']' :: rest => some (.closeArray, rest)
  | ':' :: rest => some (.colon, rest)
  | ',' :: rest => some (.comma, rest)
  | 'n' :: 'u' :: 'l' :: 'l' :: rest => some (.null, rest)
  | 't' :: 'r' :: 'u' :: 'e' :: rest => some (.bool true, rest)
  | 'f' :: 'a' :: 'l' :: 's' :: 'e' :: rest => some (.bool false, rest)
  | '"' :: rest => (pieces? [] rest).map fun (ps, rest) => (.string ps, rest)
  | cs => (number? cs).map fun (ds, rest) => (.number ds, rest)

theorem length_lt_of_token? {cs rest : List Char} {t : Token} (h : token? cs = some (t, rest)) :
    rest.length < cs.length := by
  simp only [token?] at h
  split at h
  case h_10 =>
    obtain ⟨⟨ps, tail⟩, hp, he⟩ := Option.map_eq_some_iff.1 h
    cases he
    exact Nat.lt_succ_of_lt (length_lt_of_pieces? hp)
  case h_11 =>
    obtain ⟨⟨ds, tail⟩, hn, he⟩ := Option.map_eq_some_iff.1 h
    cases he
    obtain ⟨rfl, hne⟩ := eq_append_of_number? hn
    have := List.length_pos_iff.2 hne
    simp
    omega
  all_goals
    cases h
    simp <;> omega

/-- The tokens of the text, after the reversed `done`. -/
def tokensFrom? (done : List Token) (cs : List Char) : Option (List Token) :=
  match _h : cs.dropWhile isBlank with
  | [] => some done.reverse
  | c :: cs' =>
    match _ht : token? (c :: cs') with
    | some (t, rest) => tokensFrom? (t :: done) rest
    | none => none
termination_by cs.length
decreasing_by
  have hd : (cs.dropWhile isBlank).length ≤ cs.length := (List.dropWhile_sublist isBlank).length_le
  rw [_h] at hd
  exact Nat.lt_of_lt_of_le (length_lt_of_token? _ht) hd

def tokens? (cs : List Char) : Option (List Token) := tokensFrom? [] cs

end RenderGuard.Json
