import CommandScript.Event
/-! # Work that is reported

A result, or the error that stands in its place, together with the events of getting there. Events
that came before an error are kept. The result alone does not depend on any event: taking the
result turns the steps of reported work into steps that only may fail.
-/
namespace CommandScript

structure Logged (ε α : Type) where
  events : List Event
  result : Except ε α

namespace Logged
variable {ε α β : Type}

protected def pure (a : α) : Logged ε α := ⟨[], .ok a⟩

protected def bind (x : Logged ε α) (f : α → Logged ε β) : Logged ε β :=
  match x.result with
  | .error e => ⟨x.events, .error e⟩
  | .ok a =>
    let y := f a
    ⟨x.events ++ y.events, y.result⟩

instance : Monad (Logged ε) where
  pure := Logged.pure
  bind := Logged.bind

instance : MonadExceptOf ε (Logged ε) where
  throw e := ⟨[], .error e⟩
  tryCatch x handle :=
    match x.result with
    | .error e =>
      let y := handle e
      ⟨x.events ++ y.events, y.result⟩
    | .ok _ => x

def report (e : Event) : Logged ε Unit := ⟨[e], .ok ()⟩

def reportAll (es : List Event) : Logged ε Unit := ⟨es, .ok ()⟩

/-- Work that reports nothing. -/
def ofExcept (x : Except ε α) : Logged ε α := ⟨[], x⟩

instance : MonadLift (Except ε) (Logged ε) := ⟨ofExcept⟩

def mapError {ε' : Type} (f : ε → ε') (x : Logged ε α) : Logged ε' α :=
  ⟨x.events, x.result.mapError f⟩

@[simp] theorem result_pure (a : α) : (pure a : Logged ε α).result = .ok a := rfl

@[simp] theorem result_bind (x : Logged ε α) (f : α → Logged ε β) :
    (x >>= f).result = x.result >>= fun a => (f a).result := by
  change (Logged.bind x f).result = _
  unfold Logged.bind
  cases x.result <;> rfl

@[simp] theorem result_throw (e : ε) : (throw e : Logged ε α).result = .error e := rfl

@[simp] theorem result_report (e : Event) : (report e : Logged ε Unit).result = .ok () := rfl

@[simp] theorem result_ofExcept (x : Except ε α) : (ofExcept x).result = x := rfl

end Logged

end CommandScript
