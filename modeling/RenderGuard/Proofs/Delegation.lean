import RenderGuard.Proofs.Coverage

/-! Which method a call reaches: the last one with code that has its name. -/
namespace RenderGuard

open Component Fragment Traced

namespace Component

/-- The name that a method with this key is called by. -/
def calledName? (key : Tree) : Option String := (identifierName? key).or key.literal?

/-- Whether a function has code; one that is only declared has not. -/
def hasCode : Tree → Bool
  | .record fields =>
    match fields.lookup "body" with
    | none | some (.leaf .null) => false
    | some _ => true
  | _ => false

/-- A method with code that is called by the name: on the class itself if it is static, on the
instances otherwise. -/
def answers (isStatic : Bool) (name : String) : Tree → Bool
  | .method key static function _ =>
    static == isStatic && hasCode function && calledName? key == some name
  | _ => false

/-- The method that a name stands for. -/
def method? (isStatic : Bool) (name : String) (members : List Tree) : Option Tree :=
  (members.filter (answers isStatic name)).getLast?

end Component

namespace Tree

variable {isStatic : Bool} {name other : String} {i : Nat}
variable {m : Tree} {members before rest : List Tree}

theorem exists_of_isNamed (h : isNamed name m = true) : ∃ nameAttrs isStatic function attrs,
    m = method (identifier name nameAttrs) isStatic function attrs := by
  cases m with
  | method key isStatic function attrs =>
    cases key with
    | identifier found nameAttrs =>
      obtain rfl : found = name := eq_of_beq h
      exact ⟨nameAttrs, isStatic, function, attrs, rfl⟩
    | _ => cases h
  | _ => cases h

theorem answers_of_isNamed_of_ne (h : isNamed name m = true) (hne : other ≠ name)
    (isStatic : Bool) : answers isStatic other m = false := by
  obtain ⟨nameAttrs, static, function, attrs, rfl⟩ := exists_of_isNamed h
  simp [answers, calledName?, identifierName?, hne.symm]

theorem answers_renamed (h : isNamed name m = true) (isStatic : Bool) (other : String) :
    answers isStatic other (renamed other m) = answers isStatic name m := by
  obtain ⟨nameAttrs, static, function, attrs, rfl⟩ := exists_of_isNamed h
  simp [answers, renamed, calledName?, identifierName?]

theorem isMarker_of_answers (h : answers isStatic marker m = true) : isMarker m = true := by
  cases m with
  | method key static function attrs =>
    cases key <;>
      simp_all [answers, calledName?, identifierName?, literal?, isMarker, isNamed, isQuoted]
  | _ => cases h

theorem answers_delegatingRender : answers false renderName delegatingRender = true := by
  decide

theorem exists_split_of_getElem? (h : members[i]? = some m) :
    ∃ before rest, members = before ++ m :: rest ∧ before.length = i := by
  obtain ⟨hi, rfl⟩ := List.getElem?_eq_some_iff.1 h
  refine ⟨members.take i, members.drop (i + 1), ?_, ?_⟩
  · rw [List.getElem_cons_drop, List.take_append_drop]
  · rw [List.length_take, Nat.min_eq_left (Nat.le_of_lt hi)]

theorem guardMembers_append (before : List Tree) (m : Tree) (rest : List Tree) :
    guardMembers before.length (before ++ m :: rest) =
      delegatingRender :: (before ++ renamed marker m :: rest) := by
  rw [guardMembers]
  congr 1
  induction before with
  | nil => rfl
  | cons a before ih => simp [List.modify_succ_cons, ih]

theorem method?_guardMembers_of_ne (hm : isNamed renderName m = true) (hr : name ≠ renderName)
    (hmarker : name ≠ marker) (isStatic : Bool) :
    method? isStatic name (delegatingRender :: (before ++ renamed marker m :: rest)) =
      method? isStatic name (before ++ m :: rest) := by
  have hnew : answers isStatic name delegatingRender = false :=
    answers_of_isNamed_of_ne (rfl : isNamed renderName delegatingRender = true) hr isStatic
  have hold : answers isStatic name m = false := answers_of_isNamed_of_ne hm hr isStatic
  have hmoved : answers isStatic name (renamed marker m) = false :=
    answers_of_isNamed_of_ne (isNamed_renamed marker hm) hmarker isStatic
  simp [method?, List.filter_append, hnew, hold, hmoved]

theorem method?_marker_guardMembers (hm : isNamed renderName m = true)
    (hfresh : ∀ a ∈ before ++ rest, isMarker a = false) (isStatic : Bool) :
    method? isStatic marker (delegatingRender :: (before ++ renamed marker m :: rest)) =
      if answers isStatic renderName m then some (renamed marker m) else none := by
  have hnone : (before ++ rest).filter (answers isStatic marker) = [] := by
    rw [List.filter_eq_nil_iff]
    intro a ha hc
    have hmarker : isMarker a = true := isMarker_of_answers hc
    simp [hfresh a ha] at hmarker
  obtain ⟨hbefore, hrest⟩ := List.append_eq_nil_iff.1 ((List.filter_append _ _).symm.trans hnone)
  have hnew : answers isStatic marker delegatingRender = false :=
    answers_of_isNamed_of_ne (rfl : isNamed renderName delegatingRender = true) (by decide) isStatic
  rw [method?, List.filter_cons_of_neg (by simp [hnew]), List.filter_append, hbefore,
    List.filter_cons, hrest, answers_renamed hm]
  split <;> rfl

/-- With no other render of the instances there is none after the new one. -/
theorem method?_render_guardMembers (hm : isNamed renderName m = true)
    (hother : method? false renderName (before ++ rest) = none) :
    method? false renderName (delegatingRender :: (before ++ renamed marker m :: rest)) =
        some delegatingRender ∧
      (method? false renderName (before ++ m :: rest) = some m ∨
        method? false renderName (before ++ m :: rest) = none) := by
  have hnone : (before ++ rest).filter (answers false renderName) = [] :=
    List.getLast?_eq_none_iff.1 hother
  obtain ⟨hbefore, hrest⟩ := List.append_eq_nil_iff.1 ((List.filter_append _ _).symm.trans hnone)
  have hmoved : answers false renderName (renamed marker m) = false :=
    answers_of_isNamed_of_ne (isNamed_renamed marker hm) (by decide) false
  constructor
  · rw [method?, List.filter_cons_of_pos answers_delegatingRender, List.filter_append, hbefore,
      List.filter_cons_of_neg (by simp [hmoved]), hrest]
    rfl
  · rw [method?, List.filter_append, hbefore, List.filter_cons, hrest]
    split
    · exact Or.inl rfl
    · exact Or.inr rfl

theorem answers_of_method? (h : method? isStatic name members = some m) :
    answers isStatic name m = true :=
  (List.mem_filter.1 (List.mem_of_getLast? h)).2

theorem answers_eq_false_of_method?_eq_none (h : method? isStatic name members = none)
    (hm : m ∈ members) : answers isStatic name m = false := by
  have hnone : members.filter (answers isStatic name) = [] := List.getLast?_eq_none_iff.1 h
  simpa using List.filter_eq_nil_iff.1 hnone m hm

/-- In a wrapped class the marker stands for the last render, if that has code, and other methods
stay. The new render is that of the instances if no other member is. -/
theorem wrapped_class_delegates (form : ClassForm) (className superClass : Tree)
    (members : List Tree) (attrs : List (String × Tree))
    (h : (wrapClass (classDef form className superClass members attrs)).wrapped = true) :
    ∃ i original, members[i]? = some original ∧ isNamed renderName original = true ∧
      (∀ j m, i < j → members[j]? = some m → isNamed renderName m = false) ∧
      (wrapClass (classDef form className superClass members attrs)).value =
        classDef form className superClass (guardMembers i members) attrs ∧
      (∀ isStatic name, name ≠ renderName → name ≠ marker →
        method? isStatic name (guardMembers i members) = method? isStatic name members) ∧
      (∀ isStatic, method? isStatic marker (guardMembers i members) =
        if answers isStatic renderName original then some (renamed marker original) else none) ∧
      (method? false renderName members = some original ∨
          method? false renderName members = none →
        method? false marker (guardMembers i members) =
          (method? false renderName members).map (renamed marker)) ∧
      (method? false renderName (members.eraseIdx i) = none →
        method? false renderName (guardMembers i members) = some delegatingRender ∧
        (method? false renderName members = some original ∨
          method? false renderName members = none)) := by
  rcases wrapClass_cases form className superClass members attrs with
    ⟨_, _, he⟩ | ⟨_, hfresh, i, hi, he⟩ | ⟨_, he⟩
  · simp [he] at h
  · obtain ⟨original, hget, hm⟩ := exists_of_lastIndex? hi
    obtain ⟨before, rest, rfl, rfl⟩ := exists_split_of_getElem? hget
    have hothers : ∀ a ∈ before ++ rest, isMarker a = false := by
      intro a ha
      have hall := List.any_eq_false.1 hfresh
      rcases List.mem_append.1 ha with hb | hr
      · simpa using hall a (List.mem_append_left _ hb)
      · simpa using hall a (List.mem_append_right _ (List.mem_cons_of_mem _ hr))
    have herase : (before ++ original :: rest).eraseIdx before.length = before ++ rest := by
      simp [List.eraseIdx_append_of_length_le]
    have hmarker := method?_marker_guardMembers hm hothers
    refine ⟨before.length, original, hget, hm, fun j m => eq_false_of_lastIndex?_lt hi, ?_⟩
    rw [he, guardMembers_append, herase]
    refine ⟨rfl, ?_, hmarker, ?_, method?_render_guardMembers hm⟩
    · intro isStatic name hr hn
      exact method?_guardMembers_of_ne hm hr hn isStatic
    · rintro (hsome | hnone)
      · rw [hmarker, hsome, if_pos (answers_of_method? hsome)]
        rfl
      · have hnot : answers false renderName original = false :=
          answers_eq_false_of_method?_eq_none hnone (by simp)
        rw [hmarker, hnone, if_neg (by simp [hnot])]
        rfl
  · simp [he] at h

/-- `render() {}` or `static render() {}`, at a place of the source text. -/
def renderAt (start stop : Nat) (isStatic : Bool) : Tree :=
  method (identifier "render" [("span", leaf (.span ⟨start, stop⟩))]) isStatic
    (record [("body", block ⟨start, stop⟩ 0 [])]) [("span", leaf (.span ⟨start, stop⟩))]

/-- `class Foo extends Component { ... }` -/
def componentWith (members : List Tree) : Tree :=
  classDef .declaration (identifier "Foo" []) (identifier "Component" []) members []

theorem wrapped_class_delegates_sample :
    (wrapClass (componentWith [renderAt 31 49 true, renderAt 50 61 false])).wrapped = true ∧
    ∃ members, (wrapClass (componentWith [renderAt 31 49 true, renderAt 50 61 false])).value =
        componentWith members ∧
      method? false renderName members = some delegatingRender ∧
      method? false marker members = some (renamed marker (renderAt 50 61 false)) := by
  have hw : (wrapClass (componentWith [renderAt 31 49 true, renderAt 50 61 false])).wrapped =
      true := by decide
  obtain ⟨i, original, hget, _, hlast, hvalue, _, _, hdelegates, heffect⟩ :=
    wrapped_class_delegates .declaration (identifier "Foo" []) (identifier "Component" []) _ [] hw
  have hi : i = 1 := by
    match i, hget, hlast with
    | 0, _, hlast => exact absurd (hlast 1 _ Nat.zero_lt_one rfl) (by decide)
    | 1, _, _ => rfl
    | i + 2, hget, _ => cases hget
  subst hi
  obtain ⟨hrender, hbefore⟩ := heffect rfl
  exact ⟨hw, _, hvalue, hrender, hdelegates hbefore⟩

/-- A static render after that of the instances is renamed in its place. The new render has no
effect then. -/
theorem static_render_hides_new_render :
    (wrapClass (componentWith [renderAt 31 42 false, renderAt 43 61 true])).wrapped = true ∧
    (wrapClass (componentWith [renderAt 31 42 false, renderAt 43 61 true])).value =
      componentWith
        [delegatingRender, renderAt 31 42 false, renamed marker (renderAt 43 61 true)] ∧
    method? false renderName [renderAt 31 42 false, renderAt 43 61 true] =
      some (renderAt 31 42 false) ∧
    method? false renderName
      [delegatingRender, renderAt 31 42 false, renamed marker (renderAt 43 61 true)] =
      some (renderAt 31 42 false) ∧
    renderAt 31 42 false ≠ delegatingRender ∧
    method? false marker
      [delegatingRender, renderAt 31 42 false, renamed marker (renderAt 43 61 true)] = none := by
  refine ⟨by decide, rfl, rfl, rfl, ?_, rfl⟩
  intro he
  cases he

end Tree

end RenderGuard
