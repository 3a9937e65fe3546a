import CommandScript.Binding
import CommandScript.Proofs.Outcome
import CommandScript.Proofs.Scripts.Leaves
/-! # What can go wrong with arguments

Trees without labels fail to evaluate only where they compute: on a zero divisor, on something that
is no number, or on an address too large for an integer. Once every parameter has its value, binding
fails only on a value of another domain.
-/
namespace CommandScript

/-- The errors of evaluating a tree without labels whose addresses reach up to a limit. -/
def EvalError.Expected (limit : Address) : EvalError → Prop
  | .divisionByZero => True
  | .notNumeric _ _ => True
  | .addressOverflow _ => maxInteger < limit
  | .unresolvedLabel _ => False

/-- The error of binding a value that is there. -/
def BindError.Expected : BindError → Prop
  | .domainMismatch _ _ _ => True
  | .missingArgument _ _ => False
  | .noFlagDefault _ => False

namespace Expr
variable {limit : Address}

/-- A tree without labels, whose addresses reach up to a limit. -/
def Settled (limit : Address) (e : Expr) : Prop :=
  ∀ x ∈ e.leaves, (∀ name, x ≠ .label name) ∧ ∀ a, x = .address a → a ≤ limit

end Expr

namespace Number
variable {limit : Address}

theorem ends_ofValue (op : String) {v : Value} (hv : ∀ a, v = .address a → a ≤ limit) :
    Ends (fun _ => True) (EvalError.Expected limit) (ofValue op v) := by
  cases v with
  | address a =>
    have ha := hv a rfl
    by_cases hfits : a ≤ maxInteger
    · simp only [ofValue, hfits, if_true]
      trivial
    · simp only [ofValue, hfits, if_false]
      exact Nat.lt_of_lt_of_le (Nat.lt_of_not_le hfits) ha
  | _ => trivial

theorem toValue_ne_address (n : Number) (a : Address) : n.toValue ≠ .address a := by
  cases n <;> nofun

theorem ends_applyInt (op : BinaryOp) (a b : Int32) :
    Ends (fun _ => True) (EvalError.Expected limit) (applyInt op a b) := by
  fun_cases applyInt op a b <;> trivial

theorem ends_applyBinary (op : BinaryOp) (a b : Number) :
    Ends (fun _ => True) (EvalError.Expected limit) (applyBinary op a b) := by
  unfold applyBinary
  split
  · rename_i x y
    have h : Ends (fun _ => True) (EvalError.Expected limit) (applyInt op x y) := ends_applyInt op x y
    cases hxy : applyInt op x y with
    | ok n => trivial
    | error e => exact h.of_error hxy
  · trivial

end Number

namespace Expr
variable {limit : Address}

theorem ends_eval {e : Expr} (he : e.Settled limit) :
    Ends (fun v => ∀ a, v = .address a → a ≤ limit) (EvalError.Expected limit) e.eval := by
  induction e with
  | label name => exact absurd rfl ((he _ List.mem_cons_self).1 name)
  | address pc =>
    intro a ha
    cases ha
    exact (he _ List.mem_cons_self).2 pc rfl
  | unary op e ih =>
    refine (ih he).bind (fun v hv => ?_)
    refine (Number.ends_ofValue _ hv).bind (fun n _ => ?_)
    exact fun a ha => absurd ha (Number.toValue_ne_address _ a)
  | binary op l r ihl ihr =>
    obtain ⟨hl, hr⟩ := List.forall_mem_append.mp he
    refine (ihl hl).bind (fun v hv => ?_)
    refine (Number.ends_ofValue _ hv).bind (fun left _ => ?_)
    refine (ihr hr).bind (fun w hw => ?_)
    refine (Number.ends_ofValue _ hw).bind (fun right _ => ?_)
    refine (Number.ends_applyBinary op left right).bind (fun n _ => ?_)
    exact fun a ha => absurd ha (Number.toValue_ne_address _ a)
  | _ => exact nofun

theorem ends_evalAll {es : List Expr} (h : ∀ e ∈ es, e.Settled limit) :
    Ends (fun vs => vs.length = es.length) (EvalError.Expected limit) (evalAll es) := by
  induction es with
  | nil => exact rfl
  | cons e es ih =>
    obtain ⟨he, hes⟩ := List.forall_mem_cons.mp h
    rw [evalAll, List.mapM_cons]
    refine (ends_eval he).bind (fun v _ => ?_)
    refine (ih hes).bind (fun vs hvs => ?_)
    exact congrArg Nat.succ hvs

end Expr

namespace Binding

theorem ends_coerce (index : Nat) (domain : Domain) (v : Value) :
    Ends (fun _ => True) BindError.Expected (coerce index domain v) := by
  fun_cases coerce index domain v <;> trivial

/-- Parameters that stand at their own places, with a value for each. -/
theorem ends_bindFrom {values : List Value} {params : List Param} {place : Nat}
    (hposition : ∀ p ∈ params, p.position = none)
    (hlength : place + params.length ≤ values.length) :
    Ends (fun args => args.length = params.length) BindError.Expected
      (bindFrom values place params) := by
  induction params generalizing place with
  | nil => exact rfl
  | cons p params ih =>
    obtain ⟨hp, hparams⟩ := List.forall_mem_cons.mp hposition
    rw [List.length_cons] at hlength
    have hvalue : values[place]? = some (values.get ⟨place, by omega⟩) :=
      List.getElem?_eq_getElem (by omega)
    have hfirst : Ends (fun _ => True) BindError.Expected (bindParam values place p) := by
      simp only [bindParam, hp, Option.getD_none, hvalue]
      exact ends_coerce place p.domain _
    refine hfirst.bind (fun a _ => ?_)
    refine (ih hparams (by omega)).bind (fun args hargs => ?_)
    exact congrArg Nat.succ hargs

end Binding

theorem ends_bindArguments {signature : List Param} {values : List Value}
    (hposition : ∀ p ∈ signature, p.position = none) (hlength : values.length = signature.length) :
    Ends (fun args => args.length = signature.length) BindError.Expected
      (bindArguments signature values) :=
  Binding.ends_bindFrom hposition (by omega)

theorem Arguments.ends_read {α : Type} {domain : Domain} {pick : Value → Option α}
    {args : Arguments} {place : Nat} (h : place < args.length) :
    Ends (fun _ => True) BindError.Expected (args.read domain pick place) := by
  unfold read
  rw [List.getElem?_eq_getElem h]
  dsimp only
  split <;> trivial

end CommandScript
