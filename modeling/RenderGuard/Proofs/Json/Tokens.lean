import RenderGuard.Proofs.Json.Literals

/-! Cutting a text into tokens as the grammar writes them. Only a number can go on after its end. -/
namespace RenderGuard.Json

variable {cs ds rest tail w ws : List Char} {c e : Char} {t : Token} {ts us : List Token}

/-- No digit comes next. -/
def NoDigit (cs : List Char) : Prop := ∀ c, cs.head? = some c → isDigit c = false

/-- Nothing comes next that a number could go on with. -/
def Stops (cs : List Char) : Prop :=
  ∀ c, cs.head? = some c → isDigit c = false ∧ c ≠ '.' ∧ c ≠ 'e' ∧ c ≠ 'E'

theorem Stops.noDigit (h : Stops cs) : NoDigit cs := fun c hc => (h c hc).1

theorem digits_of_digits? (h : digits? cs = some (ds, rest)) : Digits ds := by
  simp only [digits?] at h
  split at h
  · cases h
  · next hne =>
    cases h
    exact ⟨hne, fun c hc => List.all_eq_true.1 List.all_takeWhile c hc⟩

theorem digits?_append (h : Digits ds) (hrest : NoDigit rest) :
    digits? (ds ++ rest) = some (ds, rest) := by
  have hnone : rest.takeWhile isDigit = [] := by
    cases rest with
    | nil => rfl
    | cons c rest => simp [hrest c rfl]
  have htake : (ds ++ rest).takeWhile isDigit = ds := by
    rw [List.takeWhile_append_of_pos h.2, hnone, List.append_nil]
  have hdrop : (ds ++ rest).dropWhile isDigit = rest := by
    have hall := List.takeWhile_append_dropWhile (p := isDigit) (l := ds ++ rest)
    rw [htake] at hall
    exact List.append_cancel_left hall
  rw [digits?, htake, hdrop]
  split
  · exact absurd rfl h.1
  · rfl

theorem whole_of_whole? (h : whole? cs = some (ds, rest)) : Whole ds := by
  simp only [whole?] at h
  split at h
  · cases h
    exact .zero
  · next hzero =>
    obtain ⟨hne, hall⟩ := digits_of_digits? h
    obtain ⟨rfl, _⟩ := eq_append_of_digits? h
    cases ds with
    | nil => exact absurd rfl hne
    | cons c cs => exact .digits (fun hc => hzero _ (by rw [hc]; rfl)) ⟨hne, hall⟩

theorem whole?_append (h : Whole ds) (hrest : NoDigit rest) :
    whole? (ds ++ rest) = some (ds, rest) := by
  cases h with
  | zero => rfl
  | digits first h =>
    rw [List.cons_append, whole?, ← List.cons_append, digits?_append h hrest]
    simpa using first

theorem fraction_of_fraction? (h : fraction? cs = some (ds, rest)) : Fraction ds := by
  simp only [fraction?] at h
  split at h
  · obtain ⟨⟨es, tail⟩, hd, he⟩ := Option.map_eq_some_iff.1 h
    cases he
    exact .point (digits_of_digits? hd)
  · cases h
    exact .absent

theorem fraction?_append (h : Fraction ds) (hdigit : NoDigit rest)
    (hpoint : rest.head? ≠ some '.') : fraction? (ds ++ rest) = some (ds, rest) := by
  cases h with
  | absent =>
    rw [List.nil_append, fraction?]
    rintro tail rfl
    exact hpoint rfl
  | point h => rw [List.cons_append, fraction?, digits?_append h hdigit, Option.map_some]

theorem exponentSign_cases (cs : List Char) :
    (exponentSign cs).1 = [] ∨ (exponentSign cs).1 = ['+'] ∨ (exponentSign cs).1 = ['-'] := by
  unfold exponentSign
  split <;> simp

theorem exponentSign_append_digits {sign : List Char}
    (hs : sign = [] ∨ sign = ['+'] ∨ sign = ['-']) (h : Digits ds) :
    exponentSign (sign ++ (ds ++ rest)) = (sign, ds ++ rest) := by
  obtain ⟨hne, hall⟩ := h
  cases ds with
  | nil => exact absurd rfl hne
  | cons d ds =>
    have hd : isDigit d = true := hall d List.mem_cons_self
    rcases hs with rfl | rfl | rfl
    · rw [List.nil_append, exponentSign]
      · rintro tail ⟨⟩
        cases hd
      · rintro tail ⟨⟩
        cases hd
    · rfl
    · rfl

theorem exponent_of_digitsAfter (he : e = 'e' ∨ e = 'E')
    (h : exponent?.digitsAfter e cs = some (ds, rest)) : Exponent ds := by
  obtain ⟨⟨es, tail⟩, hd, heq⟩ := Option.map_eq_some_iff.1 h
  cases heq
  exact .power he (exponentSign_cases cs) (digits_of_digits? hd)

theorem exponent_of_exponent? (h : exponent? cs = some (ds, rest)) : Exponent ds := by
  simp only [exponent?] at h
  split at h
  · exact exponent_of_digitsAfter (Or.inl rfl) h
  · exact exponent_of_digitsAfter (Or.inr rfl) h
  · cases h
    exact .absent

theorem exponent?_append (h : Exponent ds) (hrest : Stops rest) :
    exponent? (ds ++ rest) = some (ds, rest) := by
  cases h with
  | absent =>
    rw [List.nil_append, exponent?]
    · rintro tail rfl
      exact (hrest 'e' rfl).2.2.1 rfl
    · rintro tail rfl
      exact (hrest 'E' rfl).2.2.2 rfl
  | @power e sign cs he hs h =>
    have hafter :
        exponent?.digitsAfter e (sign ++ cs ++ rest) = some (e :: (sign ++ cs), rest) := by
      rw [exponent?.digitsAfter, List.append_assoc, exponentSign_append_digits hs h,
        digits?_append h hrest.noDigit]
      rfl
    rcases he with rfl | rfl <;> exact hafter

/-- After the whole part no digit comes next, whatever parts of the number follow. -/
theorem noDigit_fraction (h : Fraction ds) (hrest : NoDigit rest) : NoDigit (ds ++ rest) := by
  cases h with
  | absent => exact hrest
  | point h =>
    rintro c ⟨⟩
    rfl

theorem stops_exponent (h : Exponent ds) (hrest : Stops rest) :
    NoDigit (ds ++ rest) ∧ (ds ++ rest).head? ≠ some '.' := by
  cases h with
  | absent => exact ⟨hrest.noDigit, fun hc => (hrest '.' hc).2.1 rfl⟩
  | power he _ _ =>
    rcases he with rfl | rfl <;> exact ⟨by rintro c ⟨⟩; rfl, by rintro ⟨⟩⟩

theorem number_of_unsigned? {sign : List Char} (hs : sign = [] ∨ sign = ['-'])
    (h : unsigned? cs = some (ds, rest)) : Number (sign ++ ds) := by
  simp only [unsigned?, Option.bind_eq_bind, Option.bind_eq_some_iff, Prod.exists] at h
  obtain ⟨whole, cs₁, hw, fraction, cs₂, hf, exponent, cs₃, he, hr⟩ := h
  cases hr
  exact .parts hs (whole_of_whole? hw) (fraction_of_fraction? hf) (exponent_of_exponent? he)

theorem number_of_number? (h : number? cs = some (ds, rest)) : Number ds := by
  simp only [number?] at h
  split at h
  · obtain ⟨⟨es, tail⟩, hd, he⟩ := Option.map_eq_some_iff.1 h
    cases he
    exact number_of_unsigned? (Or.inr rfl) hd
  · exact number_of_unsigned? (Or.inl rfl) h

theorem exists_digit_of_whole (h : Whole ds) : ∃ c cs, ds = c :: cs ∧ isDigit c = true := by
  cases h with
  | zero => exact ⟨'0', [], rfl, rfl⟩
  | @digits c cs _ h => exact ⟨c, cs, rfl, h.2 c List.mem_cons_self⟩

theorem number?_append (h : Number ds) (hrest : Stops rest) :
    number? (ds ++ rest) = some (ds, rest) := by
  cases h with
  | @parts sign whole fraction exponent hs hw hf he =>
    obtain ⟨hdigit, hpoint⟩ := stops_exponent he hrest
    have hunsigned : unsigned? (whole ++ fraction ++ exponent ++ rest) =
        some (whole ++ fraction ++ exponent, rest) := by
      rw [List.append_assoc, List.append_assoc, unsigned?,
        whole?_append hw (noDigit_fraction hf hdigit)]
      simp only [Option.bind_eq_bind, Option.bind_some, fraction?_append hf hdigit hpoint,
        exponent?_append he hrest]
      rfl
    rcases hs with rfl | rfl
    · obtain ⟨c, cs, rfl, hc⟩ := exists_digit_of_whole hw
      rw [List.nil_append, number?]
      · exact hunsigned
      · rintro tail ⟨⟩
        cases hc
    · exact congrArg (Option.map _) hunsigned

/-- How a token is written. -/
inductive Token.Written : Token → List Char → Prop where
  | openObject : Written .openObject ['{']
  | closeObject : Written .closeObject ['}']
  | openArray : Written .openArray ['[']
  | closeArray : Written .closeArray [']']
  | colon : Written .colon [':']
  | comma : Written .comma [',']
  | null : Written .null ['n', 'u', 'l', 'l']
  | yes : Written (.bool true) ['t', 'r', 'u', 'e']
  | no : Written (.bool false) ['f', 'a', 'l', 's', 'e']
  | number {digits : List Char} (h : Number digits) : Written (.number digits) digits
  | string {body : List Piece} {w : List Char} (h : Literal body w) : Written (.string body) w

theorem written_of_token? (h : token? cs = some (t, rest)) :
    ∃ w, t.Written w ∧ cs = w ++ rest := by
  simp only [token?] at h
  split at h
  case h_10 tail =>
    obtain ⟨⟨ps, rest⟩, hp, he⟩ := Option.map_eq_some_iff.1 h
    cases he
    obtain ⟨w, hbody, rfl⟩ := pieces?_eq_some_iff.1 hp
    exact ⟨_, .string (.quoted hbody), by simp⟩
  case h_11 =>
    obtain ⟨⟨ds, rest⟩, hn, he⟩ := Option.map_eq_some_iff.1 h
    cases he
    exact ⟨ds, .number (number_of_number? hn), (eq_append_of_number? hn).1⟩
  all_goals
    cases h
    exact ⟨_, by constructor, rfl⟩

/-- Whether a token comes to its end before `rest`. -/
def Token.Ends : Token → List Char → Prop
  | .number _, rest => Stops rest
  | _, _ => True

theorem exists_start_of_number (h : Number ds) :
    ∃ c cs, ds = c :: cs ∧ (c = '-' ∨ isDigit c = true) := by
  cases h with
  | parts hs hw _ _ =>
    rcases hs with rfl | rfl
    · obtain ⟨c, cs, rfl, hc⟩ := exists_digit_of_whole hw
      exact ⟨c, _, rfl, Or.inr hc⟩
    · exact ⟨'-', _, rfl, Or.inl rfl⟩

/-- What starts as a number is read as one. -/
theorem token?_of_start (h : c = '-' ∨ isDigit c = true) :
    token? (c :: cs) = (number? (c :: cs)).map fun (ds, rest) => (.number ds, rest) := by
  unfold token?
  split
  case h_11 => rfl
  all_goals
    rename_i heq
    cases heq
    exact absurd h (by decide)

theorem token?_append (h : t.Written w) (he : t.Ends rest) :
    token? (w ++ rest) = some (t, rest) := by
  cases h with
  | number h =>
    have hnumber := number?_append h he
    obtain ⟨c, cs, rfl, hc⟩ := exists_start_of_number h
    rw [List.cons_append] at hnumber ⊢
    rw [token?_of_start hc, hnumber, Option.map_some]
  | @string body w h =>
    cases h with
    | @quoted cs hbody =>
      have hpieces : pieces? [] (cs ++ '"' :: rest) = some (body, rest) :=
        pieces?_eq_some_iff.2 ⟨cs, hbody, rfl⟩
      rw [List.cons_append, List.append_assoc, List.singleton_append, token?, hpieces,
        Option.map_some]
  | _ => rfl

theorem isBlank_iff : isBlank c = true ↔ c ∈ [' ', '\t', '\n', '\r'] := by
  simp [isBlank, or_assoc]

/-- A text that is cut into tokens, the blanks after each token included. -/
inductive Lexed : List Token → List Char → Prop where
  | nil : Lexed [] []
  | cons {t : Token} {ts : List Token} {w ws cs : List Char} (ht : t.Written w) (hb : Blank ws)
      (hts : Lexed ts cs) : Lexed (t :: ts) (w ++ ws ++ cs)

theorem blank_takeWhile (cs : List Char) : Blank (cs.takeWhile isBlank) :=
  fun c hc => isBlank_iff.1 (List.all_eq_true.1 List.all_takeWhile c hc)

theorem lexed_of_tokensFrom? {done : List Token} (h : tokensFrom? done cs = some us) :
    ∃ ts ws tail, us = done.reverse ++ ts ∧ cs = ws ++ tail ∧ Blank ws ∧ Lexed ts tail := by
  fun_induction tokensFrom? done cs with
  | case1 done cs hd =>
    cases h
    refine ⟨[], _, [], by simp, ?_, blank_takeWhile cs, .nil⟩
    rw [← hd, List.takeWhile_append_dropWhile]
  | case2 done cs c cs' hd t rest ht ih =>
    obtain ⟨w, hw, hrest⟩ := written_of_token? ht
    obtain ⟨ts, ws, tail, rfl, rfl, hws, hts⟩ := ih h
    refine ⟨t :: ts, _, _, by simp, ?_, blank_takeWhile cs, .cons hw hws hts⟩
    rw [List.append_assoc, ← hrest, ← hd, List.takeWhile_append_dropWhile]
  | case3 => cases h

/-- From the front of the text these tokens are cut off, and this text is left. -/
def Reads (cs : List Char) (ts : List Token) (rest : List Char) : Prop :=
  ∀ done, tokensFrom? done cs = tokensFrom? (ts.reverse ++ done) rest

theorem Reads.append (h : Reads cs ts rest) (h' : Reads rest us tail) :
    Reads cs (ts ++ us) tail := by
  intro done
  rw [h done, h' _, List.reverse_append, List.append_assoc]

theorem reads_blank (h : Blank ws) (cs : List Char) : Reads (ws ++ cs) [] cs := by
  intro done
  have hdrop : (ws ++ cs).dropWhile isBlank = cs.dropWhile isBlank :=
    List.dropWhile_append_of_pos fun c hc => isBlank_iff.2 (h c hc)
  rw [tokensFrom?.eq_1, tokensFrom?.eq_1, hdrop]
  rfl

theorem exists_start_of_written (h : t.Written w) : ∃ c cs, w = c :: cs ∧ isBlank c = false := by
  cases h with
  | number h =>
    obtain ⟨c, cs, rfl, hc⟩ := exists_start_of_number h
    refine ⟨c, cs, rfl, ?_⟩
    by_contra hb
    simp only [Bool.not_eq_false, isBlank_iff, List.mem_cons, List.not_mem_nil, or_false] at hb
    rcases hb with rfl | rfl | rfl | rfl <;> exact absurd hc (by decide)
  | string h =>
    cases h with
    | quoted _ => exact ⟨'"', _, rfl, rfl⟩
  | _ => exact ⟨_, _, rfl, rfl⟩

theorem reads_token (h : t.Written w) (he : t.Ends rest) : Reads (w ++ rest) [t] rest := by
  intro done
  have htoken := token?_append h he
  obtain ⟨c, cs, rfl, hc⟩ := exists_start_of_written h
  have hdrop : (c :: cs ++ rest).dropWhile isBlank = c :: (cs ++ rest) := by
    rw [List.cons_append, List.dropWhile_cons, hc]
    rfl
  rw [tokensFrom?]
  split
  · next hd => cases hd.symm.trans hdrop
  · next hd =>
    cases hd.symm.trans hdrop
    split
    · next ht =>
      cases ht.symm.trans htoken
      rfl
    · next ht => cases ht.symm.trans htoken

theorem tokens?_of_reads (h : Reads cs ts []) : tokens? cs = some ts := by
  rw [tokens?, h [], List.append_nil, tokensFrom?]
  exact congrArg some ts.reverse_reverse

end RenderGuard.Json
