import RenderGuard.Proofs.Account
import RenderGuard.Proofs.Binding
import RenderGuard.Proofs.Json.Spelling
import RenderGuard.Proofs.Json.Texts

/-! The way of a specifier from the text of the options to the binding. -/
namespace RenderGuard

open RenderGuard.Json (Blank Body Element Literal Member Piece Separated Spelling Value)
open RenderGuard.Tree (literal? wrapNode rewrite_wrapNode)
open Fragment Traced

variable {p : Program} {options : Options} {ps : List Piece} {cs w : List Char} {specifier : String}

namespace Options

/-- The text of options that set the handler to what `body` spells, and nothing else. -/
def handlerText (body : List Char) : String :=
  "\x7b\"" ++ handlerKey ++ "\": \"" ++ String.ofList body ++ "\"\x7d"

theorem toList_handlerText (body : List Char) :
    (handlerText body).toList = '\x7b' :: '"' ::
      (handlerKey.toList ++ '"' :: ':' :: ' ' :: '"' :: (body ++ ['"', '\x7d'])) := by
  simp [handlerText]

theorem literal_handlerKey :
    Literal (handlerKey.toList.map .char) ('"' :: (handlerKey.toList ++ ['"'])) := by
  have hplain : ∀ c ∈ handlerKey.toList, 0x20 ≤ c.toNat ∧ c ≠ '"' ∧ c ≠ '\\' := by
    simp [handlerKey]
  refine .quoted (Json.body_map_char fun c hc => ?_)
  obtain ⟨hcontrol, hquote, hbackslash⟩ := hplain c hc
  exact .plain hcontrol hquote hbackslash

theorem element_handlerText (h : Body ps w) :
    Element (.object [(handlerKey.toList.map .char, .string ps)]) (handlerText w).toList := by
  have hnone : Blank [] := by simp [Blank]
  have hspace : Blank [' '] := by simp [Blank]
  have hvalue := Element.padded hspace (.string (.quoted h)) hnone
  have hmember := Member.keyed hnone literal_handlerKey hnone hvalue
  have hobject := Element.padded hnone (.object (Separated.last hmember)) hnone
  simpa [toList_handlerText] using hobject

theorem ofText?_handlerText (h : Body ps w) :
    ofText? (some (handlerText w)) = ⟨(Piece.decode ps).map String.ofList⟩ := by
  have hread := Json.read?_eq_some_iff.2 (element_handlerText h)
  rw [ofText?, Option.map_some, Option.getD_some, ofText, hread, Option.bind_some, ofValue?, keyed?,
    Json.decode_map_char]
  cases hd : Piece.decode ps with
  | none => simp [keyed?, ofHandler?, hd, unset]
  | some cs => simp [keyed?, ofHandler?, hd]

theorem handler?_of_spelling (h : Spelling cs w) : (ofText? (some (handlerText w))).handler? =
    if cs = [] then none else some (String.ofList cs) := by
  obtain ⟨ps, hbody, -⟩ := Json.exists_body_of_spelling h
  have hdecode := (Json.spelling_iff hbody).1 h
  rw [ofText?_handlerText hbody, hdecode, Option.map_some, handler?]
  cases cs <;> simp

theorem handler?_of_loneHalf (h : Body ps w) (hlone : Piece.LoneHalf ps) :
    (ofText? (some (handlerText w))).handler? = none := by
  rw [ofText?_handlerText h, Piece.decode_eq_none_iff.2 hlone]
  rfl

end Options

theorem Tree.filterMap_specifier?_wrapNode (t : Tree) :
    (wrapNode t).events.filterMap Event.specifier? = [] := by
  have haccount : t.account.filterMap Report.specifier? = [] := by
    cases t with
    | classDef form name superClass members attrs =>
      rw [account]
      split_ifs <;> rfl
    | arrow params body attrs =>
      rw [account]
      split <;> rfl
    | _ => rfl
  rw [← map_report_events_wrapNode, List.filterMap_map] at haccount
  exact haccount

namespace Program

/-- Wrapping has no module to report. -/
theorem filterMap_specifier?_wrap (p : Program) :
    p.wrap.events.filterMap Event.specifier? = [] := by
  have hnodes := (events_pass_perm rewrite_wrapNode p).filterMap Event.specifier?
  have hnone : p.nodes.flatMap (fun t => (wrapNode t).events.filterMap Event.specifier?) = [] :=
    List.flatMap_eq_nil_iff.2 fun t _ => Tree.filterMap_specifier?_wrapNode t
  rw [← wrap_eq_pass, List.filterMap_flatMap, hnone] at hnodes
  exact hnodes.eq_nil

theorem filterMap_specifier?_transform (h : p.wrap.wrapped = true) :
    (p.transform options).events.filterMap Event.specifier? = options.handler?.toList := by
  rw [events_transform, events_apply, if_pos h, List.filterMap_append, filterMap_specifier?_wrap]
  cases options.handler? <;> rfl

/-- With the options in `text`, a run binds the module `specifier` and reports it. -/
structure Binds (p : Program) (text specifier : String) : Prop where
  transformed : (p.transform (Options.ofText? (some text))).value =
    .ok (p.wrap.value.insert (binding specifier 0))
  compiled : ∀ context, (p.compile (some text) context).value =
    ⟨p.wrap.value.insert (binding specifier context), []⟩
  strings : ∀ context, (binding specifier context).nodes.filterMap literal? = [specifier]
  reported : (p.transform (Options.ofText? (some text))).events.filterMap Event.specifier? =
    [specifier]

/-- With the options in `text`, a run fails for want of a handler and binds none. -/
structure LacksHandler (p : Program) (text : String) : Prop where
  transformed : (p.transform (Options.ofText? (some text))).value = .error .missing
  compiled : ∀ context, (p.compile (some text) context).value =
    ⟨p.wrap.value, [⟨HandlerError.missing.message, p.span⟩]⟩
  reported : (p.transform (Options.ofText? (some text))).events.filterMap Event.specifier? = []

variable {text : String}

theorem program_apply_of_handler? (hw : p.wrap.wrapped = true)
    (h : options.handler? = some specifier) (context : Nat) :
    (p.apply options context).value.program = p.wrap.value.insert (binding specifier context) := by
  rw [(apply_cases _ _ _).1, bindingItem?, if_pos hw, h, insert_eq_insertAll]
  rfl

theorem program_apply_of_handler?_eq_none (h : options.handler? = none) (context : Nat) :
    (p.apply options context).value.program = p.wrap.value := by
  rw [(apply_cases _ _ _).1, bindingItem?, h, Option.map_none, ite_self]
  exact insertAll_nil _

theorem binds_of_handler? (hw : p.wrap.wrapped = true)
    (h : (Options.ofText? (some text)).handler? = some specifier) : p.Binds text specifier where
  transformed := by rw [transform_eq, if_neg (by simp [h]), program_apply_of_handler? hw h]
  compiled context := by rw [compile_eq, if_neg (by simp [h]), program_apply_of_handler? hw h]
  strings := fun _ => rfl
  reported := by
    rw [filterMap_specifier?_transform hw, h]
    rfl

theorem lacksHandler_of_handler? (hw : p.wrap.wrapped = true)
    (h : (Options.ofText? (some text)).handler? = none) : p.LacksHandler text where
  transformed := by rw [transform_eq, if_pos ⟨hw, h⟩]
  compiled context := by
    rw [compile_eq, if_pos ⟨hw, h⟩, program_apply_of_handler?_eq_none h]
  reported := by
    rw [filterMap_specifier?_transform hw, h]
    rfl

end Program

end RenderGuard
