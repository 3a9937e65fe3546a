import CommandScript.Proofs.Machine.Arguments
import Mathlib
/-! # When evaluation succeeds

An operator wants a number of each operand. An operand is one if all its leaves are numbers and it
divides no integer by zero, and whether it is a float shows in its leaves. So what a tree comes to,
and whether it comes to anything, is read off its leaves and its divisors.
-/
namespace CommandScript

theorem toInt_ofNat_of_le {a : Address} (h : a ≤ maxInteger) : (Int32.ofNat a).toInt = a :=
  Int32.toInt_ofNat_of_lt (Nat.lt_succ_of_le h)

theorem toInt_eq_zero_iff {n : Int32} : n.toInt = 0 ↔ n = 0 := by
  rw [← Int32.toInt_inj, Int32.toInt_zero]

namespace Value

/-- The number that an operator takes the value for. -/
def number? : Value → Option Number
  | int n => some (.int n)
  | float x => some (.float x)
  | address a => if a ≤ maxInteger then some (.int (Int32.ofNat a)) else none
  | _ => none

/-- The integer that the value is, be it an integer or an address of any size. -/
def whole? : Value → Option Int
  | int n => some n.toInt
  | address a => some a
  | _ => none

@[simp] theorem number?_toValue (n : Number) : n.toValue.number? = some n := by
  cases n <;> rfl

/-- Taken for an integer, the value is that integer. -/
theorem whole?_of_number?_int {v : Value} {n : Int32} (h : v.number? = some (.int n)) :
    v.whole? = some n.toInt := by
  cases v with
  | int m =>
    cases h
    rfl
  | address a =>
    by_cases ha : a ≤ maxInteger
    · simp only [number?, ha, if_true, Option.some.injEq, Number.int.injEq] at h
      rw [← h, toInt_ofNat_of_le ha, whole?]
    · simp [number?, ha] at h
  | _ => cases h

theorem whole?_of_number?_float {v : Value} {x : Float} (h : v.number? = some (.float x)) :
    v.whole? = none := by
  cases v with
  | float y => rfl
  | address a => by_cases ha : a ≤ maxInteger <;> simp [number?, ha] at h
  | _ => cases h

end Value

namespace Number

theorem ofValue_eq_ok_iff {op : String} {v : Value} {n : Number} :
    ofValue op v = .ok n ↔ v.number? = some n := by
  cases v with
  | int m => simp [ofValue, Value.number?]
  | float x => simp [ofValue, Value.number?]
  | address a => by_cases ha : a ≤ maxInteger <;> simp [ofValue, Value.number?, ha]
  | _ => simp [ofValue, Value.number?]

def isFloat : Number → Bool
  | int _ => false
  | float _ => true

theorem isFloat_applyUnary (op : UnaryOp) (n : Number) : (applyUnary op n).isFloat = n.isFloat := by
  cases op <;> cases n <;> rfl

theorem isFloat_of_applyBinary {op : BinaryOp} {a b n : Number} (h : applyBinary op a b = .ok n) :
    n.isFloat = (a.isFloat || b.isFloat) := by
  cases a with
  | int x =>
    cases b with
    | int y =>
      rw [applyBinary] at h
      cases hxy : applyInt op x y with
      | error e =>
        rw [hxy] at h
        cases h
      | ok z =>
        rw [hxy] at h
        cases h
        rfl
    | float y =>
      cases h
      rfl
  | float x =>
    cases h
    cases b <;> rfl

end Number

/-- Division and remainder. -/
def BinaryOp.divides : BinaryOp → Bool
  | div | mod => true
  | add | sub | mul => false

theorem Number.exists_applyInt_iff {op : BinaryOp} {a b : Int32} :
    (∃ c, applyInt op a b = .ok c) ↔ ¬ (op.divides = true ∧ b = 0) := by
  by_cases hb : b = 0 <;> cases op <;> simp [applyInt, BinaryOp.divides, hb]

namespace Expr
variable {e l r : Expr}

/-- The number that an operator takes the tree for. -/
def number? (e : Expr) : Option Number := e.eval.toOption.bind Value.number?

/-- The integer or the address that the tree comes to. -/
def whole? (e : Expr) : Option Int := e.eval.toOption.bind Value.whole?

theorem number?_of_eval {v : Value} (h : e.eval = .ok v) : e.number? = v.number? := by
  rw [number?, h]
  rfl

theorem whole?_of_eval {v : Value} (h : e.eval = .ok v) : e.whole? = v.whole? := by
  rw [whole?, h]
  rfl

theorem number?_eq_some_iff {n : Number} :
    e.number? = some n ↔ ∃ v, e.eval = .ok v ∧ v.number? = some n := by
  unfold number?
  cases e.eval with
  | error cause => simp [Except.toOption]
  | ok v => simp [Except.toOption]

theorem whole?_of_int {n : Int32} (h : e.number? = some (.int n)) : e.whole? = some n.toInt := by
  obtain ⟨v, hv, hn⟩ := number?_eq_some_iff.mp h
  rw [whole?_of_eval hv, Value.whole?_of_number?_int hn]

theorem whole?_of_float {x : Float} (h : e.number? = some (.float x)) : e.whole? = none := by
  obtain ⟨v, hv, hx⟩ := number?_eq_some_iff.mp h
  rw [whole?_of_eval hv, Value.whole?_of_number?_float hx]

theorem eval_unary_of_number {op : UnaryOp} {n : Number} (h : e.number? = some n) :
    (unary op e).eval = .ok (Number.applyUnary op n).toValue := by
  obtain ⟨v, hv, hn⟩ := number?_eq_some_iff.mp h
  rw [eval, hv, ok_bind, Number.ofValue_eq_ok_iff.mpr hn]
  rfl

theorem eval_binary_of_numbers {op : BinaryOp} {a b : Number} (ha : l.number? = some a)
    (hb : r.number? = some b) :
    (binary op l r).eval = (Number.applyBinary op a b).map Number.toValue := by
  obtain ⟨v, hv, ha⟩ := number?_eq_some_iff.mp ha
  obtain ⟨w, hw, hb⟩ := number?_eq_some_iff.mp hb
  rw [eval, hv, ok_bind, Number.ofValue_eq_ok_iff.mpr ha, ok_bind, hw, ok_bind,
    Number.ofValue_eq_ok_iff.mpr hb, ok_bind]
  cases Number.applyBinary op a b <;> rfl

theorem eval_unary_eq_ok_iff {op : UnaryOp} {v : Value} :
    (unary op e).eval = .ok v ↔
      ∃ n, e.number? = some n ∧ (Number.applyUnary op n).toValue = v := by
  constructor
  · intro h
    obtain ⟨w, hw, h⟩ := exists_of_bind_eq_ok h
    obtain ⟨n, hn, h⟩ := exists_of_bind_eq_ok h
    cases h
    exact ⟨n, number?_eq_some_iff.mpr ⟨w, hw, Number.ofValue_eq_ok_iff.mp hn⟩, rfl⟩
  · rintro ⟨n, hn, rfl⟩
    exact eval_unary_of_number hn

theorem eval_binary_eq_ok_iff {op : BinaryOp} {v : Value} :
    (binary op l r).eval = .ok v ↔ ∃ a b n, l.number? = some a ∧ r.number? = some b ∧
      Number.applyBinary op a b = .ok n ∧ n.toValue = v := by
  constructor
  · intro h
    obtain ⟨w, hw, h⟩ := exists_of_bind_eq_ok h
    obtain ⟨a, ha, h⟩ := exists_of_bind_eq_ok h
    obtain ⟨w', hw', h⟩ := exists_of_bind_eq_ok h
    obtain ⟨b, hb, h⟩ := exists_of_bind_eq_ok h
    obtain ⟨n, hn, h⟩ := exists_of_bind_eq_ok h
    cases h
    exact ⟨a, b, n, number?_eq_some_iff.mpr ⟨w, hw, Number.ofValue_eq_ok_iff.mp ha⟩,
      number?_eq_some_iff.mpr ⟨w', hw', Number.ofValue_eq_ok_iff.mp hb⟩, hn, rfl⟩
  · rintro ⟨a, b, n, ha, hb, hn, rfl⟩
    rw [eval_binary_of_numbers ha hb, hn]
    rfl

/-- Under an operator a tree is the number that it comes to. -/
theorem eval_eq_ok_iff_number? (he : ¬ e.IsLeaf) {v : Value} :
    e.eval = .ok v ↔ ∃ n, e.number? = some n ∧ n.toValue = v := by
  have hnumber (h : ∀ w, e.eval = .ok w → ∃ n : Number, n.toValue = w) :
      e.eval = .ok v ↔ ∃ n, e.number? = some n ∧ n.toValue = v := by
    constructor
    · intro hv
      obtain ⟨n, rfl⟩ := h v hv
      exact ⟨n, number?_eq_some_iff.mpr ⟨_, hv, Value.number?_toValue n⟩, rfl⟩
    · rintro ⟨n, hn, rfl⟩
      obtain ⟨w, hw, hn⟩ := number?_eq_some_iff.mp hn
      obtain ⟨m, rfl⟩ := h w hw
      rw [Value.number?_toValue, Option.some.injEq] at hn
      rw [hw, hn]
  cases e with
  | unary op x =>
    refine hnumber (fun w hw => ?_)
    obtain ⟨n, -, hn⟩ := eval_unary_eq_ok_iff.mp hw
    exact ⟨_, hn⟩
  | binary op l r =>
    refine hnumber (fun w hw => ?_)
    obtain ⟨a, b, n, -, -, -, hn⟩ := eval_binary_eq_ok_iff.mp hw
    exact ⟨n, hn⟩
  | _ => exact absurd trivial he

/-- The trees in a tree, itself among them. -/
def subtrees : Expr → List Expr
  | unary op e => unary op e :: e.subtrees
  | binary op l r => binary op l r :: (l.subtrees ++ r.subtrees)
  | e => [e]

/-- The leaves that stand below an operator. -/
def operandLeaves : Expr → List Expr
  | unary _ e => e.leaves
  | binary _ l r => l.leaves ++ r.leaves
  | _ => []

/-- A leaf that no operator minds: no text and no handle, and if it is an address, one that fits an
integer. -/
def IsNumeric : Expr → Prop
  | string _ | identifier _ | var _ | flag _ => False
  | address a => a ≤ maxInteger
  | _ => True

/-- A division or a remainder of integers or addresses by zero. -/
def DividesByZero : Expr → Prop
  | binary op l r => op.divides = true ∧ (∃ x, l.whole? = some x) ∧ r.whole? = some 0
  | _ => False

/-- What makes a tree a number. -/
structure Computes (e : Expr) : Prop where
  label : ∀ name, .label name ∉ e.leaves
  numeric : ∀ x ∈ e.leaves, x.IsNumeric
  divisor : ∀ d ∈ e.subtrees, ¬ d.DividesByZero

theorem computes_leaf_iff (he : e.IsLeaf) :
    e.Computes ↔ (∀ name, e ≠ .label name) ∧ e.IsNumeric := by
  have hleaves : e.leaves = [e] ∧ e.subtrees = [e] ∧ ¬ e.DividesByZero := by
    cases e with
    | unary op x => exact he.elim
    | binary op l r => exact he.elim
    | _ => exact ⟨rfl, rfl, id⟩
  obtain ⟨hleaves, hsubtrees, hzero⟩ := hleaves
  constructor
  · rintro ⟨hlabel, hnumeric, -⟩
    rw [hleaves] at hlabel hnumeric
    exact ⟨fun name h => hlabel name (h ▸ List.mem_cons_self), hnumeric e List.mem_cons_self⟩
  · rintro ⟨hlabel, hnumeric⟩
    refine ⟨fun name h => ?_, ?_, ?_⟩
    · rw [hleaves, List.mem_singleton] at h
      exact hlabel name h.symm
    · rw [hleaves, List.forall_mem_singleton]
      exact hnumeric
    · rw [hsubtrees, List.forall_mem_singleton]
      exact hzero

theorem computes_unary_iff {op : UnaryOp} : (unary op e).Computes ↔ e.Computes := by
  constructor
  · rintro ⟨hlabel, hnumeric, hdivisor⟩
    exact ⟨hlabel, hnumeric, fun d hd => hdivisor d (List.mem_cons_of_mem _ hd)⟩
  · rintro ⟨hlabel, hnumeric, hdivisor⟩
    exact ⟨hlabel, hnumeric, List.forall_mem_cons.mpr ⟨id, hdivisor⟩⟩

theorem computes_binary_iff {op : BinaryOp} :
    (binary op l r).Computes ↔
      l.Computes ∧ r.Computes ∧ ¬ (binary op l r).DividesByZero := by
  constructor
  · rintro ⟨hlabel, hnumeric, hdivisor⟩
    obtain ⟨hhere, hbelow⟩ := List.forall_mem_cons.mp hdivisor
    obtain ⟨hl, hr⟩ := List.forall_mem_append.mp hbelow
    obtain ⟨hnl, hnr⟩ := List.forall_mem_append.mp hnumeric
    exact ⟨⟨fun name h => hlabel name (List.mem_append_left _ h), hnl, hl⟩,
      ⟨fun name h => hlabel name (List.mem_append_right _ h), hnr, hr⟩, hhere⟩
  · rintro ⟨hl, hr, hhere⟩
    refine ⟨fun name h => ?_, List.forall_mem_append.mpr ⟨hl.numeric, hr.numeric⟩,
      List.forall_mem_cons.mpr ⟨hhere, List.forall_mem_append.mpr ⟨hl.divisor, hr.divisor⟩⟩⟩
    exact (List.mem_append.mp h).elim (hl.label name) (hr.label name)

theorem number?_unary (op : UnaryOp) (e : Expr) :
    (unary op e).number? = e.number?.map (Number.applyUnary op) := by
  ext n
  rw [number?_eq_some_iff, Option.map_eq_some_iff]
  simp only [eval_unary_eq_ok_iff]
  constructor
  · rintro ⟨v, ⟨m, hm, rfl⟩, hn⟩
    rw [Value.number?_toValue, Option.some.injEq] at hn
    exact ⟨m, hm, hn⟩
  · rintro ⟨m, hm, rfl⟩
    exact ⟨_, ⟨m, hm, rfl⟩, Value.number?_toValue _⟩

theorem number?_binary_eq_some_iff {op : BinaryOp} {n : Number} :
    (binary op l r).number? = some n ↔
      ∃ a b, l.number? = some a ∧ r.number? = some b ∧ Number.applyBinary op a b = .ok n := by
  rw [number?_eq_some_iff]
  simp only [eval_binary_eq_ok_iff]
  constructor
  · rintro ⟨v, ⟨a, b, m, ha, hb, hm, rfl⟩, hn⟩
    rw [Value.number?_toValue, Option.some.injEq] at hn
    exact ⟨a, b, ha, hb, hn ▸ hm⟩
  · rintro ⟨a, b, ha, hb, hn⟩
    exact ⟨_, ⟨a, b, n, ha, hb, hn, rfl⟩, Value.number?_toValue n⟩

/-- Two numbers have a result unless they are integers and the first is divided by zero. -/
theorem exists_applyBinary_iff {op : BinaryOp} {a b : Number} (ha : l.number? = some a)
    (hb : r.number? = some b) :
    (∃ n, Number.applyBinary op a b = .ok n) ↔ ¬ (binary op l r).DividesByZero := by
  cases a with
  | float x => simp [Number.applyBinary, DividesByZero, whole?_of_float ha]
  | int x =>
    cases b with
    | float y => simp [Number.applyBinary, DividesByZero, whole?_of_float hb]
    | int y =>
      have hresult : (∃ n, Number.applyBinary op (.int x) (.int y) = .ok n) ↔
          ∃ z, Number.applyInt op x y = .ok z := by
        rw [Number.applyBinary]
        cases Number.applyInt op x y <;> simp [Except.map]
      rw [hresult, Number.exists_applyInt_iff, DividesByZero, whole?_of_int ha, whole?_of_int hb]
      simp [toInt_eq_zero_iff]

/-- A tree is a number if and only if its leaves are numbers and it divides no integer by zero. -/
theorem exists_number?_iff : (∃ n, e.number? = some n) ↔ e.Computes := by
  induction e with
  | unary op e ih =>
    rw [computes_unary_iff, ← ih, number?_unary]
    cases e.number? <;> simp
  | binary op l r ihl ihr =>
    rw [computes_binary_iff, ← ihl, ← ihr]
    simp only [number?_binary_eq_some_iff]
    constructor
    · rintro ⟨n, a, b, ha, hb, hn⟩
      exact ⟨⟨a, ha⟩, ⟨b, hb⟩, (exists_applyBinary_iff ha hb).mp ⟨n, hn⟩⟩
    · rintro ⟨⟨a, ha⟩, ⟨b, hb⟩, hzero⟩
      obtain ⟨n, hn⟩ := (exists_applyBinary_iff ha hb).mpr hzero
      exact ⟨n, a, b, ha, hb, hn⟩
  | address a =>
    rw [computes_leaf_iff]
    · by_cases ha : a ≤ maxInteger <;>
        simp [number?, eval, Except.toOption, Value.number?, IsNumeric, ha]
    · trivial
  | _ =>
    rw [computes_leaf_iff]
    · simp [number?, eval, Except.toOption, Value.number?, IsNumeric]
    · trivial

/-- Below operators a float shows in the result. -/
theorem isFloat_iff {n : Number} (h : e.number? = some n) :
    n.isFloat = true ↔ ∃ x, .float x ∈ e.leaves := by
  induction e generalizing n with
  | unary op e ih =>
    rw [number?_unary, Option.map_eq_some_iff] at h
    obtain ⟨m, hm, rfl⟩ := h
    rw [Number.isFloat_applyUnary, ih hm, leaves]
  | binary op l r ihl ihr =>
    obtain ⟨a, b, ha, hb, hn⟩ := number?_binary_eq_some_iff.mp h
    rw [Number.isFloat_of_applyBinary hn, Bool.or_eq_true, ihl ha, ihr hb]
    simp only [leaves, List.mem_append, exists_or]
  | address a =>
    rw [number?_of_eval rfl] at h
    by_cases ha : a ≤ maxInteger <;> simp [Value.number?, ha] at h
    simp [← h, Number.isFloat, leaves]
  | integer m | float x =>
    cases h
    simp [Number.isFloat, leaves]
  | _ => cases h

theorem hasLabel_iff : e.hasLabel = true ↔ ∃ name, .label name ∈ e.leaves := by
  induction e with
  | unary op e ih => exact ih
  | binary op l r ihl ihr =>
    rw [hasLabel, Bool.or_eq_true, ihl, ihr]
    simp only [leaves, List.mem_append, exists_or]
  | _ => simp [hasLabel, leaves]

theorem exists_address_le (xs : List Expr) :
    ∃ limit, ∀ x ∈ xs, ∀ a, x = .address a → a ≤ limit := by
  induction xs with
  | nil => exact ⟨0, nofun⟩
  | cons x xs ih =>
    obtain ⟨limit, hlimit⟩ := ih
    cases x with
    | address b =>
      refine ⟨max limit b, List.forall_mem_cons.mpr ⟨?_, fun y hy a ha => ?_⟩⟩
      · rintro _ ⟨⟩
        exact le_max_right _ _
      · exact (hlimit y hy a ha).trans (le_max_left _ _)
    | _ => exact ⟨limit, List.forall_mem_cons.mpr ⟨nofun, hlimit⟩⟩

theorem eval_ne_unresolvedLabel (h : ∀ name, .label name ∉ e.leaves) (name : String) :
    e.eval ≠ .error (.unresolvedLabel name) := by
  obtain ⟨limit, hlimit⟩ := exists_address_le e.leaves
  have hsettled : e.Settled limit :=
    fun x hx => ⟨fun name hname => h name (hname ▸ hx), hlimit x hx⟩
  exact fun herror => (ends_eval hsettled).of_error herror

theorem operandLeaves_of_not_isLeaf (he : ¬ e.IsLeaf) : e.operandLeaves = e.leaves := by
  cases e with
  | unary op x => rfl
  | binary op l r => rfl
  | _ => exact absurd trivial he

/-- A leaf has a value unless it is a label; a tree with operators has one if it is a number. -/
theorem exists_eval_iff : (∃ v, e.eval = .ok v) ↔
    (∀ name, .label name ∉ e.leaves) ∧ (∀ x ∈ e.operandLeaves, x.IsNumeric) ∧
      ∀ d ∈ e.subtrees, ¬ d.DividesByZero := by
  by_cases he : e.IsLeaf
  · cases e with
    | unary op x => exact he.elim
    | binary op l r => exact he.elim
    | _ => simp [eval, leaves, operandLeaves, subtrees, DividesByZero]
  · simp only [eval_eq_ok_iff_number? he, operandLeaves_of_not_isLeaf he]
    constructor
    · rintro ⟨v, n, hn, -⟩
      obtain ⟨hlabel, hnumeric, hdivisor⟩ := exists_number?_iff.mp ⟨n, hn⟩
      exact ⟨hlabel, hnumeric, hdivisor⟩
    · rintro ⟨hlabel, hnumeric, hdivisor⟩
      obtain ⟨n, hn⟩ := exists_number?_iff.mpr ⟨hlabel, hnumeric, hdivisor⟩
      exact ⟨_, n, hn, rfl⟩

/-- Evaluation comes to a value if and only if no label is left and every operator finds numbers,
but not zero where it divides integers. An operator makes a float of its operands if and only if
there is a float among the leaves, and an integer if not. A label is complained about only where one
is left, and where one is left there is no value. -/
theorem eval_succeeds_iff (e : Expr) :
    ((∃ v, e.eval = .ok v) ↔
        (∀ name, .label name ∉ e.leaves) ∧ (∀ x ∈ e.operandLeaves, x.IsNumeric) ∧
          ∀ d ∈ e.subtrees, ¬ d.DividesByZero) ∧
      (¬ e.IsLeaf → ∀ v, e.eval = .ok v →
        ((∃ x, v = .float x) ↔ ∃ x, .float x ∈ e.leaves) ∧
          ((∃ n, v = .int n) ↔ ¬ ∃ x, .float x ∈ e.leaves)) ∧
      (e.hasLabel = false → ∀ name, e.eval ≠ .error (.unresolvedLabel name)) ∧
      (e.hasLabel = true → ∀ v, e.eval ≠ .ok v) := by
  refine ⟨exists_eval_iff, ?_, ?_, ?_⟩
  · intro hop v hv
    obtain ⟨n, hn, rfl⟩ := (eval_eq_ok_iff_number? hop).mp hv
    rw [← isFloat_iff hn]
    cases n <;> simp [Number.toValue, Number.isFloat]
  · intro h
    refine eval_ne_unresolvedLabel (fun name hname => ?_)
    rw [hasLabel_iff.mpr ⟨name, hname⟩] at h
    cases h
  · intro h v hv
    obtain ⟨name, hname⟩ := hasLabel_iff.mp h
    exact (exists_eval_iff.mp ⟨v, hv⟩).1 name hname

end Expr

end CommandScript
