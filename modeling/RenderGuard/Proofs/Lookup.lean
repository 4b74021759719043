import RenderGuard.Proofs.Reading

/-! The lookup of the render among the members of a class, by indices and as one pass. -/
namespace RenderGuard

open Fragment

namespace Component

/-- A name in front of a method, without quotes or in them. -/
inductive MethodName where
  | plain (name : String)
  | quoted (name : String)
  deriving DecidableEq

/-- The name of a member that is a method. -/
def methodName? : Tree → Option MethodName
  | .method (.identifier name _) _ _ _ => some (.plain name)
  | .method (.stringLiteral name _) _ _ _ => some (.quoted name)
  | _ => none

/-- The member at an index is a method of this name. -/
def MethodAt (members : List Tree) (i : Nat) (name : MethodName) : Prop :=
  members[i]?.bind methodName? = some name

instance (members : List Tree) (i : Nat) (name : MethodName) :
    Decidable (MethodAt members i name) :=
  inferInstanceAs (Decidable (_ = _))

variable {members others : List Tree} {m : Tree} {i : Nat} {name : String}

theorem isNamed_iff : isNamed name m = true ↔ methodName? m = some (.plain name) := by
  cases m with
  | method key isStatic function attrs => cases key <;> simp [isNamed, methodName?]
  | _ => simp [isNamed, methodName?]

theorem isQuoted_iff : isQuoted name m = true ↔ methodName? m = some (.quoted name) := by
  cases m with
  | method key isStatic function attrs => cases key <;> simp [isQuoted, methodName?]
  | _ => simp [isQuoted, methodName?]

theorem isMarker_iff : isMarker m = true ↔
    methodName? m = some (.plain marker) ∨ methodName? m = some (.quoted marker) := by
  rw [isMarker, Bool.or_eq_true, isNamed_iff, isQuoted_iff]

theorem isNamed_renderName_of_isMarker (h : isMarker m = true) : isNamed renderName m = false := by
  have hne : marker ≠ renderName := by decide
  rw [← Bool.not_eq_true, isNamed_iff]
  rcases isMarker_iff.1 h with hm | hm
  · simpa [hm] using hne
  · simp [hm]

theorem methodAt_iff : MethodAt members i (.plain name) ↔
    ∃ m, members[i]? = some m ∧ isNamed name m = true := by
  simp only [MethodAt, Option.bind_eq_some_iff, isNamed_iff]

namespace RenderLookup

/-- What is known before any member is read. -/
def start : RenderLookup := ⟨none, false⟩

/-- What is known after the member at `i` is read as well. -/
def note (found : RenderLookup) (i : Nat) (member : Tree) : RenderLookup :=
  if isMarker member then { found with alreadyWrapped := true }
  else if isNamed renderName member then { found with renderIndex := some i }
  else found

/-- One pass over a row of members that starts at `i`. -/
def scan (found : RenderLookup) (i : Nat) : List Tree → RenderLookup
  | [] => found
  | m :: ms => (found.note i m).scan (i + 1) ms

/-- What is known after a further row of members as well, which starts at `n`. -/
def followedBy (found : RenderLookup) (n : Nat) (later : RenderLookup) : RenderLookup where
  renderIndex := (later.renderIndex.map (· + n)).or found.renderIndex
  alreadyWrapped := found.alreadyWrapped || later.alreadyWrapped

theorem followedBy_start (found : RenderLookup) (n : Nat) : found.followedBy n start = found := by
  simp [followedBy, start]

theorem start_followedBy (later : RenderLookup) : start.followedBy 0 later = later := by
  simp [followedBy, start]

theorem followedBy_followedBy (a b c : RenderLookup) (n k : Nat) :
    (a.followedBy n b).followedBy (n + k) c = a.followedBy n (b.followedBy k c) := by
  obtain ⟨index?, wrapped⟩ := c
  cases index? with
  | none => simp [followedBy, Bool.or_assoc]
  | some i =>
    have hi : i + (n + k) = i + k + n := by omega
    simp [followedBy, Bool.or_assoc, hi]

theorem locateRender_singleton (m : Tree) :
    locateRender [m] = ⟨if isNamed renderName m then some 0 else none, isMarker m⟩ := by
  simp [locateRender, lastIndex?]

/-- Reading a member adds what there is to find in it alone. -/
theorem note_eq (found : RenderLookup) (i : Nat) (m : Tree) :
    found.note i m = found.followedBy i (locateRender [m]) := by
  rw [note, locateRender_singleton, followedBy]
  by_cases hm : isMarker m
  · simp [hm, isNamed_renderName_of_isMarker hm]
  · by_cases hr : isNamed renderName m <;> simp [hm, hr]

theorem locateRender_cons (m : Tree) (ms : List Tree) :
    locateRender (m :: ms) = (locateRender [m]).followedBy 1 (locateRender ms) := by
  rw [locateRender_singleton, followedBy, locateRender, locateRender, lastIndex?]
  cases lastIndex? (isNamed renderName) ms <;> simp

/-- A pass adds what there is to find in its members, whatever it starts from. -/
theorem scan_eq (found : RenderLookup) (i : Nat) (members : List Tree) :
    found.scan i members = found.followedBy i (locateRender members) := by
  -- over any start, because every member changes what the rest of the pass starts from
  induction members generalizing found i with
  | nil => exact (found.followedBy_start i).symm
  | cons m ms ih =>
    calc found.scan i (m :: ms)
      _ = (found.note i m).followedBy (i + 1) (locateRender ms) := ih _ _
      _ = (found.followedBy i (locateRender [m])).followedBy (i + 1) (locateRender ms) := by
        rw [note_eq]
      _ = found.followedBy i ((locateRender [m]).followedBy 1 (locateRender ms)) :=
        followedBy_followedBy _ _ _ i 1
      _ = found.followedBy i (locateRender (m :: ms)) := by rw [← locateRender_cons]

theorem scan_append (found : RenderLookup) (i : Nat) (before rest : List Tree) :
    found.scan i (before ++ rest) = (found.scan i before).scan (i + before.length) rest := by
  induction before generalizing found i with
  | nil => rfl
  | cons m ms ih =>
    have hlength : i + (ms.length + 1) = i + 1 + ms.length := by omega
    rw [List.cons_append, scan, scan, ih, List.length_cons, hlength]

theorem scan_start (members : List Tree) : start.scan 0 members = locateRender members := by
  rw [scan_eq, start_followedBy]

theorem locateRender_append (before rest : List Tree) :
    locateRender (before ++ rest) =
      (locateRender before).followedBy before.length (locateRender rest) := by
  rw [← scan_start, scan_append, scan_start, scan_eq, Nat.zero_add]

end RenderLookup

theorem isNamed_eq (name : String) :
    isNamed name = (fun name? => decide (name? = some (.plain name))) ∘ methodName? := by
  funext m
  rw [Bool.eq_iff_iff, isNamed_iff, Function.comp_apply, decide_eq_true_iff]

theorem isMarker_eq : isMarker = (fun name? =>
    decide (name? = some (.plain marker) ∨ name? = some (.quoted marker))) ∘ methodName? := by
  funext m
  rw [Bool.eq_iff_iff, isMarker_iff, Function.comp_apply, decide_eq_true_iff]

/-- The members can be told apart only by the names of those that are methods. -/
theorem locateRender_congr (h : others.map methodName? = members.map methodName?) :
    locateRender others = locateRender members := by
  rw [locateRender, locateRender, isNamed_eq, isMarker_eq, ← lastIndex?_map, ← lastIndex?_map,
    ← List.any_map, ← List.any_map, h]

theorem alreadyWrapped_iff : (locateRender members).alreadyWrapped = true ↔
    ∃ m ∈ members,
      methodName? m = some (.plain marker) ∨ methodName? m = some (.quoted marker) := by
  rw [locateRender, List.any_eq_true]
  simp only [isMarker_iff]

theorem renderIndex_eq_some_iff : (locateRender members).renderIndex = some i ↔
    MethodAt members i (.plain renderName) ∧
      ∀ j, i < j → ¬ MethodAt members j (.plain renderName) := by
  rw [locateRender, lastIndex?_eq_some_iff, methodAt_iff]
  apply and_congr_right
  intro _
  constructor
  · intro hafter j hj hat
    obtain ⟨m, hm, hn⟩ := methodAt_iff.1 hat
    rw [hafter j m hj hm] at hn
    cases hn
  · intro hafter j m hj hm
    rw [← Bool.not_eq_true]
    intro hn
    exact hafter j hj (methodAt_iff.2 ⟨m, hm, hn⟩)

theorem renderIndex_eq_none_iff : (locateRender members).renderIndex = none ↔
    ∀ i, ¬ MethodAt members i (.plain renderName) := by
  constructor
  · intro h i hat
    obtain ⟨m, hm, hn⟩ := methodAt_iff.1 hat
    have hany : members.any (isNamed renderName) = true :=
      List.any_eq_true.2 ⟨m, List.mem_of_getElem? hm, hn⟩
    have hnone : lastIndex? (isNamed renderName) members = none := h
    rw [any_eq_isSome_lastIndex?, hnone] at hany
    cases hany
  · intro hnone
    cases h : (locateRender members).renderIndex with
    | none => rfl
    | some i => exact absurd (renderIndex_eq_some_iff.1 h).1 (hnone i)

/-- The lookup is what one pass over the members ends with: the last render, and whether any method
has the marker for a name. Only names of methods are read. -/
theorem lookup_finds_last_render (members : List Tree) :
    RenderLookup.start.scan 0 members = locateRender members ∧
    ((locateRender members).alreadyWrapped = true ↔
      ∃ m ∈ members,
        methodName? m = some (.plain marker) ∨ methodName? m = some (.quoted marker)) ∧
    (∀ i, (locateRender members).renderIndex = some i ↔
      MethodAt members i (.plain renderName) ∧
        ∀ j, i < j → ¬ MethodAt members j (.plain renderName)) ∧
    ((locateRender members).renderIndex = none ↔
      ∀ i, ¬ MethodAt members i (.plain renderName)) ∧
    (∀ rest,
      (locateRender (members ++ rest)).alreadyWrapped =
        ((locateRender members).alreadyWrapped || (locateRender rest).alreadyWrapped) ∧
      (locateRender (members ++ rest)).renderIndex =
        match (locateRender rest).renderIndex with
        | some i => some (i + members.length)
        | none => (locateRender members).renderIndex) ∧
    (∀ others : List Tree, others.map methodName? = members.map methodName? →
      locateRender others = locateRender members) := by
  refine ⟨RenderLookup.scan_start members, alreadyWrapped_iff, fun i => renderIndex_eq_some_iff,
    renderIndex_eq_none_iff, ?_, fun others => locateRender_congr⟩
  intro rest
  rw [RenderLookup.locateRender_append]
  refine ⟨rfl, ?_⟩
  rw [RenderLookup.followedBy]
  cases (locateRender rest).renderIndex <;> rfl

/-- Two renders with something between them, and a quoted marker at the end. -/
def memberRow (isStatic : Bool) (function second : Tree) : List Tree :=
  [.method (.identifier "render" []) isStatic function [], second,
    .method (.identifier "render" []) isStatic function [],
    .method (.stringLiteral "__originalRenderMethod__" []) isStatic function []]

def plainRow : List Tree := memberRow false (.leaf .null) (.node "EmptyStatement" [])

/-- The same names, of static methods with code, and another row in a block among them. -/
def busyRow : List Tree :=
  memberRow true (.record [("body", .block .dummy 0 [])])
    (.node "StaticBlock" [("body", .list plainRow)])

theorem lookup_finds_last_render_sample :
    busyRow.map methodName? = plainRow.map methodName? ∧
    locateRender plainRow = ⟨some 2, true⟩ ∧ locateRender busyRow = ⟨some 2, true⟩ := by
  obtain ⟨-, hmarker, hindex, -, -, hothers⟩ := lookup_finds_last_render plainRow
  have hafter : ∀ j, 2 < j → ¬ MethodAt plainRow j (.plain renderName) := by
    intro j hj
    match j, hj with
    | 3, _ => decide
    | j + 4, _ => exact fun hat => nomatch hat
  have hquoted : (locateRender plainRow).alreadyWrapped = true :=
    hmarker.2 ⟨.method (.stringLiteral marker []) false (.leaf .null) [],
      List.mem_of_getElem? (i := 3) rfl, Or.inr rfl⟩
  have hplain : locateRender plainRow = ⟨some 2, true⟩ := by
    calc locateRender plainRow
      _ = ⟨(locateRender plainRow).renderIndex, (locateRender plainRow).alreadyWrapped⟩ := rfl
      _ = ⟨some 2, true⟩ := by rw [(hindex 2).2 ⟨rfl, hafter⟩, hquoted]
  exact ⟨rfl, hplain, (hothers busyRow rfl).trans hplain⟩

end Component

end RenderGuard
