import CommandScript.Parsing.Expression
import CommandScript.Proofs.Outcome
import CommandScript.Proofs.Scripts.Leaves
/-! # Leaves of what is read

An expression is put together from literals and from what its names stand for. So each of its
leaves is a literal or comes from a name.
-/
namespace CommandScript

namespace Grammar

/-- Where a leaf of an expression comes from. -/
inductive LeafSource (resolve : String → Expr) : Expr → Prop
  | integer (n : Int32) : LeafSource resolve (.integer n)
  | float (x : Float) : LeafSource resolve (.float x)
  | string (s : String) : LeafSource resolve (.string s)
  | name {name : String} {x : Expr} (h : x ∈ (resolve name).leaves) : LeafSource resolve x

/-- All leaves come from literals and names. -/
def Sourced (resolve : String → Expr) (e : Expr) : Prop := ∀ x ∈ e.leaves, LeafSource resolve x

variable {τ : Type} [TokenStream τ] {resolve : String → Expr}

theorem sourced_binary {op : BinaryOp} {l r : Expr} (hl : Sourced resolve l)
    (hr : Sourced resolve r) : Sourced resolve (.binary op l r) := by
  intro x hx
  exact (List.mem_append.mp hx).elim (hl x) (hr x)

theorem sourced_ofNumber? {text : String} {e : Expr} (h : Expr.ofNumber? text = some e) :
    Sourced resolve e := by
  unfold Expr.ofNumber? at h
  split at h
  · obtain ⟨n, -, rfl⟩ := Option.map_eq_some_iff.mp h
    exact List.forall_mem_singleton.mpr (.integer n)
  · split at h
    · obtain ⟨x, -, rfl⟩ := Option.map_eq_some_iff.mp h
      exact List.forall_mem_singleton.mpr (.float x)
    · obtain ⟨n, -, rfl⟩ := Option.map_eq_some_iff.mp h
      exact List.forall_mem_singleton.mpr (.integer n)

theorem sourced_expressions :
    (∀ (s : τ) p, primary resolve s = .ok p → Sourced resolve p.value) ∧
    (∀ (s : τ) p, additive resolve s = .ok p → Sourced resolve p.value) ∧
    (∀ left (s : τ) p, Sourced resolve left → terms resolve left s = .ok p →
      Sourced resolve p.value) ∧
    (∀ (s : τ) p, multiplicative resolve s = .ok p → Sourced resolve p.value) ∧
    (∀ left (s : τ) p, Sourced resolve left → factors resolve left s = .ok p →
      Sourced resolve p.value) := by
  apply primary.mutual_induct
  · intro s ihSign ihParen p h
    rw [primary] at h
    obtain ⟨t, -, h⟩ := exists_of_bind_eq_ok h
    split at h
    · rename_i hk
      split at h
      · obtain ⟨e, he, h⟩ := exists_of_bind_eq_ok h
        cases h
        exact ihSign t hk e he
      · cases h
    · rename_i hk
      obtain ⟨e, he, h⟩ := exists_of_bind_eq_ok h
      obtain ⟨close, -, h⟩ := exists_of_bind_eq_ok h
      split at h
      · cases h
        exact ihParen t hk e he
      · cases h
    · split at h
      · rename_i e hnumber
        cases h
        exact sourced_ofNumber? hnumber
      · cases h
    · cases h
      exact List.forall_mem_singleton.mpr (.string _)
    · cases h
      exact fun x hx => .name hx
    · cases h
  · intro s ihTerm ihRest p h
    rw [additive] at h
    obtain ⟨left, hleft, h⟩ := exists_of_bind_eq_ok h
    obtain ⟨e, he, h⟩ := exists_of_bind_eq_ok h
    cases h
    exact ihRest left e (ihTerm left hleft) he
  · intro left s ihTerm ihRest p hleft h
    rw [terms] at h
    obtain ⟨t, -, h⟩ := exists_of_bind_eq_ok h
    split at h
    · rename_i op hop
      obtain ⟨right, hright, h⟩ := exists_of_bind_eq_ok h
      obtain ⟨e, he, h⟩ := exists_of_bind_eq_ok h
      cases h
      exact ihRest t op hop right e (sourced_binary hleft (ihTerm t op hop right hright)) he
    · cases h
      exact hleft
  · intro s ihFactor ihRest p h
    rw [multiplicative] at h
    obtain ⟨left, hleft, h⟩ := exists_of_bind_eq_ok h
    obtain ⟨e, he, h⟩ := exists_of_bind_eq_ok h
    cases h
    exact ihRest left e (ihFactor left hleft) he
  · intro left s ihFactor ihRest p hleft h
    rw [factors] at h
    obtain ⟨t, -, h⟩ := exists_of_bind_eq_ok h
    split at h
    · rename_i op hop
      obtain ⟨right, hright, h⟩ := exists_of_bind_eq_ok h
      obtain ⟨e, he, h⟩ := exists_of_bind_eq_ok h
      cases h
      exact ihRest t op hop right e (sourced_binary hleft (ihFactor t op hop right hright)) he
    · cases h
      exact hleft

theorem sourced_of_expression {s : τ} {p : Parsed Expr s} (h : expression resolve s = .ok p) :
    Sourced resolve p.value :=
  sourced_expressions.2.1 s p h

end Grammar

end CommandScript
