import RenderGuard.Json.Value

/-! The tokens of a value, and reading the value back from them. -/
namespace RenderGuard.Json

variable {v : Value} {frames : List Frame} {s s' : State} {t : Token} {ts : List Token}

/-- The values directly inside a value. -/
def Value.parts : Value → List Value
  | .array items => items
  | .object members => members.map Prod.snd
  | _ => []

mutual

theorem holds_of_parts {P : Value → Prop} (step : ∀ v, (∀ w ∈ v.parts, P w) → P v) : ∀ v, P v
  | .null | .bool _ | .number _ | .string _ => step _ fun _ hw => nomatch hw
  | .array items => step _ (holdsItems_of_parts step items)
  | .object members => step _ (holdsMembers_of_parts step members)

theorem holdsItems_of_parts {P : Value → Prop} (step : ∀ v, (∀ w ∈ v.parts, P w) → P v) :
    ∀ items : List Value, ∀ w ∈ items, P w
  | [], _, hw => nomatch hw
  | v :: items, w, hw =>
    List.forall_mem_cons.2 ⟨holds_of_parts step v, holdsItems_of_parts step items⟩ w hw

theorem holdsMembers_of_parts {P : Value → Prop} (step : ∀ v, (∀ w ∈ v.parts, P w) → P v) :
    ∀ members : List (List Piece × Value), ∀ w ∈ members.map Prod.snd, P w
  | [], _, hw => nomatch hw
  | (_, v) :: members, w, hw =>
    List.forall_mem_cons.2 ⟨holds_of_parts step v, holdsMembers_of_parts step members⟩ w hw

end

/-- A property that passes from the parts of a value to the value holds of every value. -/
@[elab_as_elim]
theorem Value.inductionOnParts {P : Value → Prop} (v : Value)
    (step : ∀ v, (∀ w ∈ v.parts, P w) → P v) : P v := holds_of_parts step v

/-- Rows of tokens with a comma between each two. -/
def separated : List (List Token) → List Token
  | [] => []
  | [row] => row
  | row :: rows => row ++ .comma :: separated rows

theorem separated_concat {α : Type} (row : α → List Token) (xs : List α) (x : α) :
    separated ((xs ++ [x]).map row) = xs.flatMap (fun y => row y ++ [.comma]) ++ row x := by
  induction xs with
  | nil => rfl
  | cons first xs ih =>
    rw [List.cons_append, List.map_cons, separated, ih]
    · simp
    · simp

/-- The first of the rows stands at the start. -/
theorem exists_separated_cons (row : List Token) (rows : List (List Token)) :
    ∃ rest, separated (row :: rows) = row ++ rest := by
  cases rows with
  | nil => exact ⟨[], (List.append_nil row).symm⟩
  | cons next rows => exact ⟨_, rfl⟩

mutual

def Value.tokens : Value → List Token
  | .null => [.null]
  | .bool b => [.bool b]
  | .number digits => [.number digits]
  | .string body => [.string body]
  | .array items => .openArray :: (separated (itemTokens items) ++ [.closeArray])
  | .object members => .openObject :: (separated (memberTokens members) ++ [.closeObject])

def itemTokens : List Value → List (List Token)
  | [] => []
  | v :: items => v.tokens :: itemTokens items

def memberTokens : List (List Piece × Value) → List (List Token)
  | [] => []
  | (key, v) :: members => (.string key :: .colon :: v.tokens) :: memberTokens members

end

/-- The tokens of a member of an object. -/
def keyedTokens (m : List Piece × Value) : List Token := .string m.1 :: .colon :: m.2.tokens

theorem itemTokens_eq (items : List Value) : itemTokens items = items.map Value.tokens := by
  induction items with
  | nil => rfl
  | cons v items ih => rw [itemTokens, ih, List.map_cons]

theorem memberTokens_eq (members : List (List Piece × Value)) :
    memberTokens members = members.map keyedTokens := by
  induction members with
  | nil => rfl
  | cons m members ih => rw [memberTokens, ih, List.map_cons, keyedTokens]

theorem tokens_array (items : List Value) : (Value.array items).tokens =
    .openArray :: (separated (items.map Value.tokens) ++ [.closeArray]) := by
  rw [Value.tokens, itemTokens_eq]

theorem tokens_object (members : List (List Piece × Value)) :
    (Value.object members).tokens =
      .openObject :: (separated (members.map keyedTokens) ++ [.closeObject]) := by
  rw [Value.tokens, memberTokens_eq]

theorem exists_start_of_tokens (v : Value) :
    ∃ t ts, v.tokens = t :: ts ∧ t ≠ .closeArray := by
  cases v with
  | array => exact ⟨_, _, tokens_array _, by simp⟩
  | object => exact ⟨_, _, tokens_object _, by simp⟩
  | _ => exact ⟨_, [], rfl, by simp⟩

namespace State

@[simp] theorem run?_cons (s : State) (t : Token) (ts : List Token) :
    s.run? (t :: ts) = (s.step? t).bind (run? · ts) := rfl

/-- Rows with commas between them are read row by row, if each is read wherever it stands. -/
theorem run?_separated {α : Type} {row : α → List Token} {close : Token} {xs : List α}
    (start finish : List α → State) (hne : xs ≠ [])
    (hmore : ∀ x ∈ xs, ∀ done ts,
      (start done).run? (row x ++ .comma :: ts) = (start (x :: done)).run? ts)
    (hlast : ∀ x ∈ xs, ∀ done ts,
      (start done).run? (row x ++ close :: ts) = (finish (x :: done).reverse).run? ts)
    (done : List α) (ts : List Token) :
    (start done).run? (separated (xs.map row) ++ close :: ts) =
      (finish (done.reverse ++ xs)).run? ts := by
  induction xs generalizing done with
  | nil => exact absurd rfl hne
  | cons x xs ih =>
    cases xs with
    | nil => simpa [separated] using hlast x List.mem_cons_self done ts
    | cons y ys =>
      have htail := ih (List.cons_ne_nil y ys) (fun z hz => hmore z (List.mem_cons_of_mem x hz))
        (fun z hz => hlast z (List.mem_cons_of_mem x hz)) (x :: done)
      rw [List.reverse_cons, List.append_assoc, List.singleton_append] at htail
      rw [← htail, ← hmore x List.mem_cons_self, List.map_cons, List.map_cons, separated,
        List.append_assoc, List.cons_append]
      exact List.cons_ne_nil _ _

/-- In an empty array the first value is read as any other. -/
theorem run?_firstItem (v : Value) (frames : List Frame) (ts : List Token) :
    (firstItem frames).run? (v.tokens ++ ts) =
      (value (.array [] :: frames)).run? (v.tokens ++ ts) := by
  obtain ⟨t, us, ht, hne⟩ := exists_start_of_tokens v
  rw [ht, List.cons_append, run?_cons, run?_cons]
  cases t <;> first | rfl | exact absurd rfl hne

/-- Whether the tokens of a value are read as the value, inside any frames. -/
def ReadsBack (v : Value) : Prop :=
  ∀ frames ts, (value frames).run? (v.tokens ++ ts) = (after v frames).run? ts

theorem readsBack_array {items : List Value} (h : ∀ v ∈ items, ReadsBack v) :
    ReadsBack (.array items) := by
  intro frames ts
  cases items with
  | nil => rfl
  | cons v vs =>
    have hrows : (value (.array [] :: frames)).run?
        (separated ((v :: vs).map Value.tokens) ++ .closeArray :: ts) =
          (after (.array (v :: vs)) frames).run? ts := by
      refine run?_separated (fun done => value (.array done :: frames))
        (fun items => after (.array items) frames) (List.cons_ne_nil v vs) ?_ ?_ [] ts
      · intro w hw done ts
        exact h w hw (.array done :: frames) (.comma :: ts)
      · intro w hw done ts
        exact h w hw (.array done :: frames) (.closeArray :: ts)
    obtain ⟨rest, hrest⟩ := exists_separated_cons v.tokens (vs.map Value.tokens)
    rw [List.map_cons, hrest, List.append_assoc, ← run?_firstItem, ← List.append_assoc] at hrows
    rw [← hrows, tokens_array, List.map_cons, hrest, List.cons_append, List.append_assoc]
    rfl

theorem readsBack_object {members : List (List Piece × Value)}
    (h : ∀ m ∈ members, ReadsBack m.2) : ReadsBack (.object members) := by
  intro frames ts
  cases members with
  | nil => rfl
  | cons m ms =>
    have hrows : (nextKey [] frames).run?
        (separated ((m :: ms).map keyedTokens) ++ .closeObject :: ts) =
          (after (.object (m :: ms)) frames).run? ts := by
      refine run?_separated (fun done => nextKey done frames)
        (fun members => after (.object members) frames) (List.cons_ne_nil m ms) ?_ ?_ [] ts
      · rintro ⟨key, w⟩ hw done ts
        exact h _ hw (.object done key :: frames) (.comma :: ts)
      · rintro ⟨key, w⟩ hw done ts
        exact h _ hw (.object done key :: frames) (.closeObject :: ts)
    obtain ⟨rest, hrest⟩ := exists_separated_cons (keyedTokens m) (ms.map keyedTokens)
    rw [List.map_cons, hrest] at hrows
    rw [← hrows, tokens_object, List.map_cons, hrest, List.cons_append, List.append_assoc]
    rfl

theorem readsBack (v : Value) : ReadsBack v := by
  induction v using Value.inductionOnParts with
  | step v ih =>
    cases v with
    | array items => exact readsBack_array ih
    | object members => exact readsBack_object fun m hm => ih m.2 (List.mem_map_of_mem hm)
    | _ => exact fun _ _ => rfl

end State

def Frame.tokens : Frame → List Token
  | .array done => .openArray :: done.reverse.flatMap fun v => v.tokens ++ [.comma]
  | .object done key =>
    .openObject :: (done.reverse.flatMap (fun m => keyedTokens m ++ [.comma]) ++
      [.string key, .colon])

/-- The tokens that were read before, of the outermost frame first. -/
def framesTokens (frames : List Frame) : List Token := frames.reverse.flatMap Frame.tokens

@[simp] theorem framesTokens_cons (frame : Frame) (frames : List Frame) :
    framesTokens (frame :: frames) = framesTokens frames ++ frame.tokens := by
  simp [framesTokens]

namespace State

def tokens : State → List Token
  | value frames => framesTokens frames
  | firstItem frames => framesTokens frames ++ [.openArray]
  | firstKey frames => framesTokens frames ++ [.openObject]
  | nextKey done frames =>
    framesTokens frames ++ .openObject :: done.reverse.flatMap fun m => keyedTokens m ++ [.comma]
  | colon done key frames =>
    framesTokens frames ++ .openObject ::
      (done.reverse.flatMap (fun m => keyedTokens m ++ [.comma]) ++ [.string key])
  | after v frames => framesTokens frames ++ v.tokens

theorem tokens_openValue? (h : openValue? frames t = some s) :
    s.tokens = framesTokens frames ++ [t] := by
  cases t <;> cases h <;> rfl

theorem tokens_closeValue? (h : closeValue? v frames t = some s) :
    s.tokens = framesTokens frames ++ v.tokens ++ [t] := by
  unfold closeValue? at h
  split at h <;> cases h
  · simp [tokens, Frame.tokens]
  · rw [tokens, tokens_array, List.reverse_cons, separated_concat]
    simp [Frame.tokens]
  · simp [tokens, Frame.tokens, keyedTokens]
  · rw [tokens, tokens_object, List.reverse_cons, separated_concat]
    simp [Frame.tokens, keyedTokens]

/-- A step puts the token that it reads behind what was read before. -/
theorem tokens_step? (h : s.step? t = some s') : s'.tokens = s.tokens ++ [t] := by
  unfold step? at h
  split at h
  · exact tokens_openValue? h
  · cases h
    simp [tokens, tokens_array, separated]
  · rw [tokens_openValue? h]
    simp [tokens, Frame.tokens]
  · cases h
    simp [tokens, tokens_object, separated]
  · cases h
    simp [tokens]
  · cases h
    simp [tokens]
  · cases h
    simp [tokens, Frame.tokens]
  · exact tokens_closeValue? h
  · cases h

theorem tokens_run? (h : s.run? ts = some s') : s'.tokens = s.tokens ++ ts := by
  induction ts generalizing s with
  | nil =>
    cases h
    exact (List.append_nil _).symm
  | cons t ts ih =>
    obtain ⟨u, hu, hrest⟩ := Option.bind_eq_some_iff.1 h
    rw [ih hrest, tokens_step? hu, List.append_assoc, List.singleton_append]

end State

theorem ofTokens?_eq_some_iff : Value.ofTokens? ts = some v ↔ ts = v.tokens := by
  constructor
  · intro h
    unfold Value.ofTokens? at h
    split at h
    · next hrun =>
      cases h
      exact (State.tokens_run? hrun).symm
    · cases h
  · rintro rfl
    have hrun := State.readsBack v [] []
    rw [List.append_nil] at hrun
    rw [Value.ofTokens?, hrun]
    rfl

end RenderGuard.Json
