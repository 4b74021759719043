import RenderGuard.Session
import RenderGuard.Proofs.Binding

/-! What each step makes of a session and what it says of itself, and the session a run leaves. -/
namespace RenderGuard.Session

open Traced

theorem step_apply (s : Session) (options : Options) (context : Nat) :
    (s.step (.apply options context)).value =
      (⟨s.program.wrap.value.insertAll
          (Program.bindingItem? s.program.wrap.wrapped options context).toList, s.wrapped⟩,
        if s.program.wrap.wrapped = true ∧ options.handler? = none then .failed .missing
        else .applied s.program.wrap.wrapped) := by
  obtain ⟨hprogram, hresult⟩ := Program.apply_cases s.program options context
  simp only [step, value_bind, value_pure, hprogram]
  by_cases hn : s.program.wrap.wrapped = true ∧ options.handler? = none
  · rw [if_pos hn] at hresult ⊢
    rw [hresult]
  · rw [if_neg hn] at hresult ⊢
    rw [hresult]

theorem step_wrap (s : Session) :
    (s.step .wrap).value =
      (⟨s.program.wrap.value, s.wrapped || s.program.wrap.wrapped⟩, .done) := rfl

theorem step_bind (s : Session) (options : Options) (context : Nat) :
    (s.step (.bind options context)).value =
      (⟨s.program.insertAll (Program.bindingItem? s.wrapped options context).toList, s.wrapped⟩,
        if s.wrapped = true ∧ options.handler? = none then .failed .missing else .done) := by
  simp only [step, value_bind]
  rcases Program.bindHandler_cases s.program s.wrapped options context with
    ⟨hn, hb, he⟩ | ⟨hn, he⟩
  · rw [he, hb, if_pos hn, Option.toList_none, Program.insertAll_nil]
    rfl
  · rw [he, if_neg hn]
    rfl

theorem step_compile (s : Session) (text? : Option String) (context : Nat) :
    (s.step (.compile text? context)).value =
      (⟨s.program.wrap.value.insertAll (Program.bindingItem? s.program.wrap.wrapped
          (Options.ofText? text?) context).toList, s.wrapped⟩,
        .compiled (if s.program.wrap.wrapped = true ∧ (Options.ofText? text?).handler? = none
          then [⟨HandlerError.missing.message, s.program.span⟩] else [])) := by
  simp only [step, value_bind, value_pure, Program.compile_eq,
    (Program.apply_cases s.program (Options.ofText? text?) context).1]

theorem step_reset (s : Session) : (s.step .reset).value = (⟨s.program, false⟩, .done) := rfl

/-- The session that a run leaves. -/
def afterRun (s : Session) (steps : List Step) : Session :=
  ((s.run steps).map (·.value.1)).getLastD s

theorem afterRun_cons (s : Session) (a : Step) (steps : List Step) :
    s.afterRun (a :: steps) = (s.step a).value.1.afterRun steps := by
  rw [afterRun, run, List.map_cons, List.getLastD_cons, afterRun]

theorem afterRun_concat (s : Session) (steps : List Step) (a : Step) :
    s.afterRun (steps ++ [a]) = ((s.afterRun steps).step a).value.1 := by
  induction steps generalizing s with
  | nil => rfl
  | cons b steps ih => rw [List.cons_append, afterRun_cons, ih, afterRun_cons]

end RenderGuard.Session
