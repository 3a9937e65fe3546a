import CommandScript.Proofs.Values.Success
/-! # Integers that wrap around

Every operation on integers wraps its result to 32 bits. Wrapping commutes with negation, addition,
subtraction and multiplication, so a tree without divisions comes to the exact value of the whole
tree, wrapped once. A division does not commute: it takes its operands as they have been wrapped.
-/
namespace CommandScript

/-- The operation on all integers. -/
def UnaryOp.onIntegers : UnaryOp → Int → Int
  | plus, x => x
  | minus, x => -x

/-- The operation on all integers. Quotients go toward zero. -/
def BinaryOp.onIntegers : BinaryOp → Int → Int → Int
  | add, x, y => x + y
  | sub, x, y => x - y
  | mul, x, y => x * y
  | div, x, y => x.tdiv y
  | mod, x, y => x.tmod y

theorem UnaryOp.ofInt_onIntegers (op : UnaryOp) (x : Int) :
    Int32.ofInt (op.onIntegers (Int32.ofInt x).toInt) = .ofInt (op.onIntegers x) := by
  cases op with
  | plus => exact Int32.ofInt_toInt _
  | minus => simp only [onIntegers, Int32.ofInt_neg, Int32.ofInt_toInt]

/-- Operands may be wrapped before anything but a division. -/
theorem BinaryOp.ofInt_onIntegers {op : BinaryOp} (hop : op.divides = false) (x y : Int) :
    Int32.ofInt (op.onIntegers (Int32.ofInt x).toInt (Int32.ofInt y).toInt) =
      .ofInt (op.onIntegers x y) := by
  cases op with
  | add => simp only [onIntegers, Int32.ofInt_add, Int32.ofInt_toInt]
  | sub => simp only [onIntegers, Int32.ofInt_sub, Int32.ofInt_toInt]
  | mul => simp only [onIntegers, Int32.ofInt_mul, Int32.ofInt_toInt]
  | div => cases hop
  | mod => cases hop

namespace Number

theorem applyUnary_int (op : UnaryOp) (a : Int32) :
    applyUnary op (.int a) = .int (.ofInt (op.onIntegers a.toInt)) := by
  cases op with
  | plus => rw [applyUnary, UnaryOp.onIntegers, Int32.ofInt_toInt]
  | minus => rw [applyUnary, UnaryOp.onIntegers, Int32.ofInt_neg, Int32.ofInt_toInt]

/-- Every operation is the exact one, wrapped, except for a division by zero. -/
theorem applyInt_eq (op : BinaryOp) (a b : Int32) :
    applyInt op a b = if op.divides = true ∧ b = 0 then .error .divisionByZero
      else .ok (.ofInt (op.onIntegers a.toInt b.toInt)) := by
  cases op with
  | add => simp [applyInt, BinaryOp.divides, BinaryOp.onIntegers, Int32.ofInt_add]
  | sub => simp [applyInt, BinaryOp.divides, BinaryOp.onIntegers, Int32.ofInt_sub]
  | mul => simp [applyInt, BinaryOp.divides, BinaryOp.onIntegers, Int32.ofInt_mul]
  | div =>
    have hquotient : Int32.ofInt (a.toInt.tdiv b.toInt) = a / b := by
      rw [Int32.ofInt_eq_iff_bmod_eq_toInt, Int32.toInt_div]
    simp [applyInt, BinaryOp.divides, BinaryOp.onIntegers, hquotient]
  | mod =>
    have hremainder : Int32.ofInt (a.toInt.tmod b.toInt) = a % b := by
      rw [← Int32.toInt_mod, Int32.ofInt_toInt]
    simp [applyInt, BinaryOp.divides, BinaryOp.onIntegers, hremainder]

end Number

namespace Expr
variable {e l r : Expr}

/-- A leaf that is an integer, or an address that fits one. -/
def IsWhole : Expr → Prop
  | integer _ => True
  | address a => a ≤ maxInteger
  | _ => False

/-- Only integers, and addresses that fit them, stand at the leaves. -/
def Whole (e : Expr) : Prop := ∀ x ∈ e.leaves, x.IsWhole

/-- Nothing is divided. -/
def DivisionFree : Expr → Prop
  | unary _ e => e.DivisionFree
  | binary op l r => op.divides = false ∧ l.DivisionFree ∧ r.DivisionFree
  | _ => True

/-- The value over all integers, for trees whose leaves are integers and addresses. -/
def exactValue : Expr → Int
  | integer n => n.toInt
  | address a => a
  | unary op e => op.onIntegers e.exactValue
  | binary op l r => op.onIntegers l.exactValue r.exactValue
  | _ => 0

/-- Such a tree comes to an integer, or to an address that fits one, or a division fails. -/
theorem ends_eval_of_whole (he : e.Whole) :
    Ends (fun v => ∃ n, v.number? = some (.int n)) (· = .divisionByZero) e.eval := by
  induction e with
  | integer n => exact ⟨n, rfl⟩
  | address a =>
    have ha : a ≤ maxInteger := he _ List.mem_cons_self
    exact ⟨Int32.ofNat a, if_pos ha⟩
  | unary op e ih =>
    refine (ih he).bind (fun v ⟨n, hn⟩ => ?_)
    rw [Number.ofValue_eq_ok_iff.mpr hn, ok_bind, Number.applyUnary_int]
    exact ⟨_, rfl⟩
  | binary op l r ihl ihr =>
    obtain ⟨hl, hr⟩ := List.forall_mem_append.mp he
    refine (ihl hl).bind (fun v ⟨a, ha⟩ => ?_)
    rw [Number.ofValue_eq_ok_iff.mpr ha, ok_bind]
    refine (ihr hr).bind (fun w ⟨b, hb⟩ => ?_)
    rw [Number.ofValue_eq_ok_iff.mpr hb, ok_bind, Number.applyBinary, Number.applyInt_eq]
    split
    · rfl
    · exact ⟨_, rfl⟩
  | _ => exact (he _ List.mem_cons_self).elim

theorem whole_of_mem_subtrees (he : e.Whole) {d : Expr} (hd : d ∈ e.subtrees) : d.Whole := by
  induction e with
  | unary op e ih =>
    rcases List.mem_cons.mp hd with rfl | hd
    · exact he
    · exact ih he hd
  | binary op l r ihl ihr =>
    obtain ⟨hl, hr⟩ := List.forall_mem_append.mp he
    rcases List.mem_cons.mp hd with rfl | hd
    · exact he
    · exact (List.mem_append.mp hd).elim (ihl hl) (ihr hr)
  | _ =>
    cases List.mem_singleton.mp hd
    exact he

theorem exists_int_of_whole? (he : e.Whole) {x : Int} (hx : e.whole? = some x) :
    ∃ n : Int32, e.number? = some (.int n) ∧ n.toInt = x := by
  have hends := ends_eval_of_whole he
  unfold whole? at hx
  cases hv : e.eval with
  | error cause =>
    rw [hv] at hx
    cases hx
  | ok v =>
    rw [hv] at hx hends
    obtain ⟨n, hn⟩ := hends
    have hwhole : some n.toInt = some x := (Value.whole?_of_number?_int hn).symm.trans hx
    exact ⟨n, number?_eq_some_iff.mpr ⟨v, hv, hn⟩, Option.some.inj hwhole⟩

theorem eval_unary_of_whole {op : UnaryOp} (he : e.Whole) {x : Int} (hx : e.whole? = some x) :
    (unary op e).eval = .ok (.int (.ofInt (op.onIntegers x))) := by
  obtain ⟨n, hn, rfl⟩ := exists_int_of_whole? he hx
  rw [eval_unary_of_number hn, Number.applyUnary_int]
  rfl

theorem eval_binary_of_whole {op : BinaryOp} (hl : l.Whole) (hr : r.Whole) {x y : Int}
    (hx : l.whole? = some x) (hy : r.whole? = some y) :
    (binary op l r).eval = if op.divides = true ∧ y = 0 then .error .divisionByZero
      else .ok (.int (.ofInt (op.onIntegers x y))) := by
  obtain ⟨a, ha, rfl⟩ := exists_int_of_whole? hl hx
  obtain ⟨b, hb, rfl⟩ := exists_int_of_whole? hr hy
  rw [eval_binary_of_numbers ha hb, Number.applyBinary, Number.applyInt_eq]
  simp only [toInt_eq_zero_iff]
  split <;> rfl

/-- Without divisions, wrapping at every operator is as good as wrapping once. -/
theorem number?_of_divisionFree (he : e.Whole) (hfree : e.DivisionFree) :
    e.number? = some (.int (.ofInt e.exactValue)) := by
  induction e with
  | integer n =>
    rw [exactValue, Int32.ofInt_toInt]
    rfl
  | address a =>
    have ha : a ≤ maxInteger := he _ List.mem_cons_self
    rw [exactValue, Int32.ofInt_eq_ofNat]
    exact if_pos ha
  | unary op e ih =>
    rw [number?_unary, ih he hfree, Option.map_some, Number.applyUnary_int,
      UnaryOp.ofInt_onIntegers, exactValue]
  | binary op l r ihl ihr =>
    obtain ⟨hl, hr⟩ := List.forall_mem_append.mp he
    obtain ⟨hop, hfreel, hfreer⟩ := hfree
    refine number?_binary_eq_some_iff.mpr ⟨_, _, ihl hl hfreel, ihr hr hfreer, ?_⟩
    rw [Number.applyBinary, Number.applyInt_eq, if_neg (by simp [hop]),
      BinaryOp.ofInt_onIntegers hop, exactValue]
    rfl
  | _ => exact (he _ List.mem_cons_self).elim

end Expr

/-- A wrapped integer is the only one in its range that is congruent. -/
theorem eq_toInt_ofInt_iff {x z : Int} :
    (-2 ^ 31 ≤ z ∧ z < 2 ^ 31 ∧ z ≡ x [ZMOD 2 ^ 32]) ↔ z = (Int32.ofInt x).toInt := by
  have hcongr : (Int32.ofInt x).toInt ≡ x [ZMOD 2 ^ 32] := by
    rw [Int32.toInt_ofInt]
    exact Int.bmod_emod
  have hlow := (Int32.ofInt x).le_toInt
  have hhigh := (Int32.ofInt x).toInt_lt
  constructor
  · rintro ⟨hz, hz', hzx⟩
    have hsame : z % 2 ^ 32 = (Int32.ofInt x).toInt % 2 ^ 32 := hzx.trans hcongr.symm
    omega
  · rintro rfl
    exact ⟨hlow, hhigh, hcongr⟩

namespace Expr
variable {e : Expr}

/-- Arithmetic on integers, and on addresses that fit them, is exact up to wrapping. An expression
without divisions comes to the one 32-bit integer that is congruent to its exact value. In any
expression each operator comes to the wrapped result on what its operands come to, and a quotient
goes toward zero. Nothing can fail but a division by zero. -/
theorem eval_wraps (hwhole : e.Whole) (hop : ¬ e.IsLeaf) :
    (e.DivisionFree → ∃ w : Int32, e.eval = .ok (.int w) ∧
        ∀ z : Int, (-2 ^ 31 ≤ z ∧ z < 2 ^ 31 ∧ z ≡ e.exactValue [ZMOD 2 ^ 32]) ↔ z = w.toInt) ∧
      (∀ op d x, .unary op d ∈ e.subtrees → d.whole? = some x →
        (unary op d).eval = .ok (.int (.ofInt (op.onIntegers x)))) ∧
      (∀ op l r x y, .binary op l r ∈ e.subtrees → l.whole? = some x → r.whole? = some y →
        (binary op l r).eval = if op.divides = true ∧ y = 0 then .error .divisionByZero
          else .ok (.int (.ofInt (op.onIntegers x y)))) ∧
      ((∃ w, e.eval = .ok (.int w)) ∨ e.eval = .error .divisionByZero) := by
  refine ⟨fun hfree => ?_, fun op d x hd hx => ?_, fun op l r x y hd hx hy => ?_, ?_⟩
  · refine ⟨.ofInt e.exactValue, ?_, fun z => eq_toInt_ofInt_iff⟩
    exact (eval_eq_ok_iff_number? hop).mpr ⟨_, number?_of_divisionFree hwhole hfree, rfl⟩
  · have hoperand : d.Whole := fun y hy => whole_of_mem_subtrees hwhole hd y hy
    exact eval_unary_of_whole hoperand hx
  · obtain ⟨hl, hr⟩ := List.forall_mem_append.mp (whole_of_mem_subtrees hwhole hd)
    exact eval_binary_of_whole hl hr hx hy
  · have hends := ends_eval_of_whole hwhole
    cases hv : e.eval with
    | error cause =>
      rw [hv] at hends
      exact .inr (congrArg Except.error hends)
    | ok v =>
      rw [hv] at hends
      obtain ⟨n, hn⟩ := hends
      obtain ⟨m, hm, rfl⟩ := (eval_eq_ok_iff_number? hop).mp hv
      rw [Value.number?_toValue, Option.some.injEq] at hn
      exact .inl ⟨n, hn ▸ rfl⟩

/-- Every operator of the first expression overflows. In the second one the least integer is divided
by minus one, which gives it back, and the remainder of that is zero. -/
theorem eval_wraps_least :
    let product : Expr :=
      .unary .minus
        (.binary .mul (.address 2147483647) (.binary .add (.integer 2147483647) (.integer 1)))
    let quotient : Expr := .binary .div (.integer (-2147483648)) (.unary .minus (.integer 1))
    product.eval = .ok (.int (-2147483648)) ∧
      (∃ w : Int32, product.eval = .ok (.int w) ∧ ∀ z : Int, (-2 ^ 31 ≤ z ∧ z < 2 ^ 31 ∧
        z ≡ -(2147483647 * (2147483647 + 1)) [ZMOD 2 ^ 32]) ↔ z = w.toInt) ∧
      quotient.eval = .ok (.int (-2147483648)) ∧
      (Expr.binary .mod quotient (.integer (-1))).eval = .ok (.int 0) := by
  intro product quotient
  have hproduct : product.Whole := by simp [Whole, product, leaves, IsWhole, maxInteger]
  have hremainder : (Expr.binary .mod quotient (.integer (-1))).Whole := by
    simp [Whole, quotient, leaves, IsWhole]
  obtain ⟨hexact, -⟩ := eval_wraps hproduct id
  obtain ⟨-, -, hnodes, -⟩ := eval_wraps hremainder id
  have hquotient : quotient.eval = .ok (.int (-2147483648)) := by
    refine (hnodes .div _ _ (-2147483648) (-1) ?_ rfl rfl).trans rfl
    simp [quotient, subtrees]
  have hfree : product.DivisionFree := by simp [product, DivisionFree, BinaryOp.divides]
  refine ⟨rfl, hexact hfree, hquotient, ?_⟩
  refine (hnodes .mod _ _ (-2147483648) (-1) List.mem_cons_self ?_ rfl).trans rfl
  rw [whole?_of_eval hquotient]
  rfl

end Expr

end CommandScript
