import CommandScript.Logged
/-! # Outcomes of work in steps

How work that may fail came to its outcome: a success of two steps is a success of each, and a
failure is one of the first step or of the second.
-/
namespace CommandScript
variable {ε α β : Type}

@[simp] theorem ok_bind (a : α) (f : α → Except ε β) : (Except.ok a >>= f) = f a := rfl

@[simp] theorem error_bind (e : ε) (f : α → Except ε β) : (Except.error e >>= f) = .error e := rfl

theorem exists_of_bind_eq_ok {x : Except ε α} {f : α → Except ε β} {b : β} (h : x >>= f = .ok b) :
    ∃ a, x = .ok a ∧ f a = .ok b := by
  cases x with
  | error e => cases h
  | ok a => exact ⟨a, rfl, h⟩

theorem mapError_eq_ok_iff {ε' : Type} {x : Except ε α} {f : ε → ε'} {a : α} :
    x.mapError f = .ok a ↔ x = .ok a := by
  cases x with
  | ok b => constructor <;> (intro h; cases h; rfl)
  | error e => constructor <;> (intro h; cases h)

@[simp] theorem Logged.result_reportAll (es : List Event) :
    (reportAll es : Logged ε Unit).result = .ok () := rfl

@[simp] theorem Logged.result_lift (x : Except ε α) : (liftM x : Logged ε α).result = x := rfl

/-- How work may end: with a value of one kind, or with an error of another. -/
def Ends {ε α : Type} (good : α → Prop) (bad : ε → Prop) : Except ε α → Prop
  | .ok a => good a
  | .error e => bad e

namespace Ends
variable {ε ε' α β : Type} {good : α → Prop} {good' : β → Prop} {bad : ε → Prop}

theorem bind {x : Except ε α} {k : α → Except ε β} (hx : Ends good bad x)
    (hk : ∀ a, good a → Ends good' bad (k a)) : Ends good' bad (x >>= k) := by
  cases x with
  | ok a => exact hk a hx
  | error e => exact hx

theorem mapError {bad' : ε' → Prop} {f : ε → ε'} {x : Except ε α} (hx : Ends good bad x)
    (hf : ∀ e, bad e → bad' (f e)) : Ends good bad' (x.mapError f) := by
  cases x with
  | ok a => exact hx
  | error e => exact hf e hx

theorem of_any (x : Except ε α) : Ends (fun _ => True) (fun _ => True) x := by
  cases x <;> trivial

theorem of_error {x : Except ε α} {e : ε} (hx : Ends good bad x) (he : x = .error e) : bad e := by
  subst he
  exact hx

end Ends

end CommandScript
