import RenderGuard.Event

/-! A result together with what computing it left behind: the events in order, and whether a
component was wrapped. -/
namespace RenderGuard

structure Traced (α : Type) where
  value : α
  events : List Event
  wrapped : Bool

namespace Traced

variable {α β : Type}

instance : Monad Traced where
  pure a := ⟨a, [], false⟩
  bind x f :=
    ⟨(f x.value).value, x.events ++ (f x.value).events, x.wrapped || (f x.value).wrapped⟩

def emit (e : Event) : Traced Unit := ⟨(), [e], false⟩

/-- Records that a component was wrapped. -/
def noteWrapped : Traced Unit := ⟨(), [], true⟩

/-- The result together with whether a component was wrapped for it. -/
def listen (x : Traced α) : Traced (α × Bool) := ⟨(x.value, x.wrapped), x.events, x.wrapped⟩

@[ext] theorem ext {x y : Traced α} (hv : x.value = y.value) (he : x.events = y.events)
    (hw : x.wrapped = y.wrapped) : x = y := by
  cases x
  cases y
  simp_all

@[simp] theorem value_pure (a : α) : (pure a : Traced α).value = a := rfl

@[simp] theorem events_pure (a : α) : (pure a : Traced α).events = [] := rfl

@[simp] theorem wrapped_pure (a : α) : (pure a : Traced α).wrapped = false := rfl

@[simp] theorem value_bind (x : Traced α) (f : α → Traced β) :
    (x >>= f).value = (f x.value).value := rfl

@[simp] theorem events_bind (x : Traced α) (f : α → Traced β) :
    (x >>= f).events = x.events ++ (f x.value).events := rfl

@[simp] theorem wrapped_bind (x : Traced α) (f : α → Traced β) :
    (x >>= f).wrapped = (x.wrapped || (f x.value).wrapped) := rfl

@[simp] theorem events_emit (e : Event) : (emit e).events = [e] := rfl

@[simp] theorem wrapped_emit (e : Event) : (emit e).wrapped = false := rfl

@[simp] theorem events_noteWrapped : noteWrapped.events = [] := rfl

@[simp] theorem wrapped_noteWrapped : noteWrapped.wrapped = true := rfl

@[simp] theorem value_listen (x : Traced α) : x.listen.value = (x.value, x.wrapped) := rfl

@[simp] theorem events_listen (x : Traced α) : x.listen.events = x.events := rfl

@[simp] theorem wrapped_listen (x : Traced α) : x.listen.wrapped = x.wrapped := rfl

instance : LawfulMonad Traced := LawfulMonad.mk' _
  (fun x => by ext1 <;> simp [Functor.map])
  (fun _ _ => rfl)
  (fun x f g => by ext1 <;> simp [Bool.or_assoc])

@[simp] theorem value_map (f : α → β) (x : Traced α) : (f <$> x).value = f x.value := rfl

@[simp] theorem events_map (f : α → β) (x : Traced α) : (f <$> x).events = x.events :=
  List.append_nil _

@[simp] theorem wrapped_map (f : α → β) (x : Traced α) : (f <$> x).wrapped = x.wrapped :=
  Bool.or_false _

end Traced

end RenderGuard
