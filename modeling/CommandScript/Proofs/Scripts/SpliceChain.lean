import CommandScript.Proofs.Scripts.Leaves
import Mathlib
/-! # Labels in nested copies

A macro's body may be copied into another body, that one into a third, and so on up to the script
that is linked. Each copy moves the commands behind what was there before and settles the labels that
the copied body declares. So a label ends up at the place where the innermost script that declares it
has put it, moved by all later copies.
-/
namespace CommandScript

open Finset (range Ico)

namespace Script

/-- What becomes of a script while more is read into it. -/
inductive Grows (s : Script) : Script → Prop
  | refl : Grows s s
  | push {t : Script} (h : Grows s t) (c : Command) : Grows s (t.push c)
  | splice {t : Script} (h : Grows s t) (body : Script) : Grows s (t.splice body)
  | declareLabel {t : Script} (h : Grows s t) (name : String) : Grows s (t.declareLabel name)
  | declareConstant {t : Script} (h : Grows s t) (name : String) (e : Expr) :
    Grows s (t.declareConstant name e)
  | declareMacro {t : Script} (h : Grows s t) (name : String) (body : Script) :
    Grows s (t.declareMacro name body)

theorem Grows.exists_commands {s t : Script} (h : Grows s t) :
    ∃ more, t.commands = s.commands ++ more := by
  induction h with
  | refl => exact ⟨#[], by simp⟩
  | push h c ih =>
    obtain ⟨more, hmore⟩ := ih
    exact ⟨more.push c, by simp [Script.push, hmore]⟩
  | splice h body ih =>
    obtain ⟨more, hmore⟩ := ih
    exact ⟨more ++ body.commands.map (Command.rebase body.labels _), by
      rw [Script.splice, hmore, Array.append_assoc]⟩
  | declareLabel h name ih => exact ih
  | declareConstant h name e ih => exact ih
  | declareMacro h name body ih => exact ih

/-- The result had `base` commands when the body was copied into it, and has grown since. -/
def Spliced (body : Script) (base : Nat) (result : Script) : Prop :=
  ∃ start : Script, start.size = base ∧ (start.splice body).Grows result

theorem Spliced.command? {body result : Script} {base : Nat} (h : Spliced body base result)
    {j : Nat} {c : Command} (hc : body.command? j = some c) :
    result.command? (j + base) = some (c.rebase body.labels base) := by
  obtain ⟨start, rfl, hgrows⟩ := h
  obtain ⟨more, hmore⟩ := hgrows.exists_commands
  have hbody : body.commands[j]? = some c := hc
  have hj : j < body.commands.size := (Array.getElem?_eq_some_iff.mp hbody).1
  have hlt : j + start.size <
      (start.commands ++ body.commands.map (Command.rebase body.labels start.size)).size := by
    rw [Array.size_append, Array.size_map, size]
    omega
  have hge : start.commands.size ≤ j + start.size := Nat.le_add_left _ _
  rw [Script.command?, hmore, Script.splice, Array.getElem?_append_left hlt,
    Array.getElem?_append_right hge, Array.getElem?_map]
  simp [size, hbody]

end Script

section Chain
variable (S : Nat → Script) (b : Nat → Nat)

/-- A tree of the first script in the copies of the next ones. -/
def carry : Nat → Expr → Expr
  | 0, e => e
  | i + 1, e => (carry i e).rebase (S i).labels (b i)

/-- What a leaf of the first script becomes when the `k`-th is linked. A label becomes the address
of the first script that declares it, moved by the copies from there on. -/
inductive Settles (k : Nat) : Expr → Expr → Prop
  | label {name : String} {i : Nat} {pc : Address} (hi : i ≤ k)
    (hleast : ∀ i' < i, (S i').label? name = none) (hpc : (S i).label? name = some pc) :
    Settles k (.label name) (.address (pc + ∑ m ∈ Ico i k, b m))
  | address (pc : Address) : Settles k (.address pc) (.address (pc + ∑ m ∈ range k, b m))
  | other {x : Expr} (hlabel : ∀ name, x ≠ .label name) (haddress : ∀ pc, x ≠ .address pc) :
    Settles k x x

variable {S b} {k : Nat}

theorem Settles.rebase {i : Nat} {x y : Expr} (h : Settles S b i x y) (hx : x.IsLeaf) :
    Settles S b (i + 1) x (y.rebase (S i).labels (b i)) := by
  cases h with
  | @label name m pc hm hleast hpc =>
    have hsum : b i + (pc + ∑ n ∈ Ico m i, b n) = pc + ∑ n ∈ Ico m (i + 1), b n := by
      rw [Finset.sum_Ico_succ_top hm]
      omega
    rw [Expr.rebase, hsum]
    exact .label (Nat.le_succ_of_le hm) hleast hpc
  | address pc =>
    have hsum : b i + (pc + ∑ n ∈ range i, b n) = pc + ∑ n ∈ range (i + 1), b n := by
      rw [Finset.sum_range_succ]
      omega
    rw [Expr.rebase, hsum]
    exact .address pc
  | other hlabel haddress =>
    rcases hx.label_or_address_or_plain with ⟨name, rfl⟩ | ⟨pc, rfl⟩ | hplain
    · exact absurd rfl (hlabel name)
    · exact absurd rfl (haddress pc)
    · rw [hplain.rebase_eq]
      exact .other hlabel haddress

/-- After some copies a leaf is settled, or it is a label that no script has declared so far. -/
theorem carry_settles {x : Expr} (hx : x.IsLeaf) (i : Nat) :
    Settles S b i x (carry S b i x) ∨
      ∃ name, x = .label name ∧ carry S b i x = .label name ∧ ∀ m < i, (S m).label? name = none := by
  induction i with
  | zero =>
    rcases hx.label_or_address_or_plain with ⟨name, rfl⟩ | ⟨pc, rfl⟩ | hplain
    · exact .inr ⟨name, rfl, rfl, fun m hm => absurd hm (Nat.not_lt_zero m)⟩
    · exact .inl (.address pc)
    · exact .inl (.other hplain.ne_label hplain.ne_address)
  | succ i ih =>
    rcases ih with hsettled | ⟨name, rfl, hcarry, hnone⟩
    · exact .inl (hsettled.rebase hx)
    · rw [carry, hcarry, Expr.rebase]
      cases hget : (S i).labels.get? name with
      | none =>
        refine .inr ⟨name, rfl, rfl, fun m hm => ?_⟩
        rcases Nat.lt_succ_iff_lt_or_eq.mp hm with hm | rfl
        · exact hnone m hm
        · exact hget
      | some pc =>
        -- This copy is the first to settle the name, and so far the only one to move it.
        have hsum : b i + pc = pc + ∑ n ∈ Ico i (i + 1), b n := by
          rw [Finset.sum_Ico_succ_top (Nat.le_refl i), Finset.Ico_self, Finset.sum_empty]
          omega
        left
        dsimp only
        rw [hsum]
        exact .label (Nat.le_succ i) hnone hget

theorem carry_eq_mapLeaves (i : Nat) (e : Expr) : carry S b i e = e.mapLeaves (carry S b i) := by
  induction i with
  | zero => exact (Expr.mapLeaves_id e).symm
  | succ i ih =>
    have hleaf : ∀ x, (carry S b i x).mapLeaves (Expr.rebase (S i).labels (b i)) =
        carry S b (i + 1) x := fun x => (Expr.rebase_eq_mapLeaves _ _ _).symm
    calc carry S b (i + 1) e
        = (e.mapLeaves (carry S b i)).mapLeaves (Expr.rebase (S i).labels (b i)) := by
          rw [carry, ih, Expr.rebase_eq_mapLeaves]
      _ = e.mapLeaves (carry S b (i + 1)) := by
          rw [Expr.mapLeaves_mapLeaves]
          simp only [hleaf]

theorem missing_link_carry {labels : NameTable Address} {e : Expr}
    (h : ((carry S b k e).link labels).missing = none) :
    ∀ x ∈ e.leaves, ((carry S b k x).link labels).missing = none := by
  rw [carry_eq_mapLeaves, Expr.missing_link] at h
  intro x hx
  rw [Expr.missing_link]
  intro y hy
  exact h y (Expr.mem_leaves_mapLeaves.mpr ⟨x, hx, hy⟩)

theorem value_link_carry {labels : NameTable Address} {e : Expr}
    (h : ((carry S b k e).link labels).missing = none) :
    ((carry S b k e).link labels).value =
      e.mapLeaves (fun x => ((carry S b k x).link labels).value) := by
  rw [Expr.value_link h, carry_eq_mapLeaves, Expr.mapLeaves_mapLeaves]
  refine Expr.mapLeaves_congr (fun x hx => ?_)
  rw [Expr.value_link (missing_link_carry h x hx)]

/-- Linking leaves a settled leaf as it is. -/
theorem Settles.value_link {x y : Expr} (h : Settles S b k x y) (hx : x.IsLeaf)
    (labels : NameTable Address) : (y.link labels).value = y := by
  cases h with
  | label hi hleast hpc => rfl
  | address pc => rfl
  | other hlabel haddress =>
    rcases hx.label_or_address_or_plain with ⟨name, rfl⟩ | ⟨pc, rfl⟩ | hplain
    · exact absurd rfl (hlabel name)
    · exact absurd rfl (haddress pc)
    · rw [hplain.link_eq]

/-- The last script settles the labels that are left when it is linked. -/
theorem settles_link {x : Expr} (hx : x.IsLeaf)
    (hlink : ((carry S b k x).link (S k).labels).missing = none) :
    Settles S b k x ((carry S b k x).link (S k).labels).value := by
  rcases carry_settles hx k with hsettled | ⟨name, rfl, hcarry, hnone⟩
  · rw [hsettled.value_link hx]
    exact hsettled
  · rw [hcarry] at hlink ⊢
    obtain ⟨pc, hpc⟩ := Expr.missing_link_label.mp hlink
    have hsum : pc = pc + ∑ n ∈ Ico k k, b n := by
      rw [Finset.Ico_self, Finset.sum_empty, Nat.add_zero]
    have hvalue : ((Expr.label name).link (S k).labels).value = .address pc := by
      simp only [Expr.link, hpc]
    rw [hvalue, hsum]
    exact .label (Nat.le_refl k) hnone hpc

/-- A label that no script declares is not found. -/
theorem missing_link_carry_label {name : String} (hnone : ∀ i ≤ k, (S i).label? name = none) :
    ((carry S b k (.label name)).link (S k).labels).missing ≠ none := by
  intro hlink
  have hsettles := settles_link (x := .label name) trivial hlink
  generalize ((carry S b k (.label name)).link (S k).labels).value = y at hsettles
  cases hsettles with
  | label hi hleast hpc => cases (hnone _ hi).symm.trans hpc
  | other hlabel haddress => exact hlabel name rfl

variable (hchain : ∀ i < k, Script.Spliced (S i) (b i) (S (i + 1)))
include hchain

/-- The copies of a command of the first script. -/
theorem command?_of_spliceChain {j : Nat} {c : Command} (hc : (S 0).command? j = some c) {i : Nat}
    (hi : i ≤ k) :
    (S i).command? (j + ∑ m ∈ range i, b m) = some ⟨c.type, c.args.map (carry S b i)⟩ := by
  induction i with
  | zero =>
    have hargs : c.args.map (carry S b 0) = c.args := List.map_id c.args
    rw [hargs, Finset.sum_range_zero, Nat.add_zero]
    exact hc
  | succ i ih =>
    have hspliced := (hchain i hi).command? (ih (Nat.le_of_succ_le hi))
    have hargs : (c.args.map (carry S b i)).map (Expr.rebase (S i).labels (b i)) =
        c.args.map (carry S b (i + 1)) := List.map_map
    rw [Finset.sum_range_succ, ← Nat.add_assoc, hspliced, Command.rebase, hargs]

theorem missing_link_of_spliceChain (hlink : (S k).link.missing = none) {c : Command}
    (hc : c ∈ (S 0).commands) :
    ∀ e ∈ c.args, ((carry S b k e).link (S k).labels).missing = none := by
  obtain ⟨j, hj⟩ := Array.mem_iff_getElem?.mp hc
  have hplace := command?_of_spliceChain hchain hj (Nat.le_refl k)
  have hmem := Array.mem_of_getElem? hplace
  intro e he
  exact Script.missing_link.mp hlink _ hmem _ (List.mem_map_of_mem he)

/-- When the last script of a chain of copies is linked, a command of the first one stands behind
all that the copies were put behind. Its type and the operators of its arguments are the same, and
each leaf has settled. A label of the first script that no script of the chain declares keeps the
last one from being linked. -/
theorem link_spliceChain :
    ((S k).link.missing = none → ∃ settle : Expr → Expr,
      (∀ c ∈ (S 0).commands, ∀ e ∈ c.args, ∀ x ∈ e.leaves, Settles S b k x (settle x)) ∧
        ∀ j c, (S 0).command? j = some c →
          (S k).link.value.command? (j + ∑ m ∈ range k, b m) =
            some ⟨c.type, c.args.map (Expr.mapLeaves settle)⟩) ∧
      ∀ c ∈ (S 0).commands, ∀ e ∈ c.args, ∀ name, .label name ∈ e.leaves →
        (∀ i ≤ k, (S i).label? name = none) → (S k).link.missing ≠ none := by
  constructor
  · intro hlink
    have hmissing : ∀ c ∈ (S 0).commands, ∀ e ∈ c.args,
        ((carry S b k e).link (S k).labels).missing = none :=
      fun c hc => missing_link_of_spliceChain hchain hlink hc
    refine ⟨fun x => ((carry S b k x).link (S k).labels).value, ?_, ?_⟩
    · intro c hc e he x hx
      have hleaf := missing_link_carry (hmissing c hc e he) x hx
      exact settles_link (Expr.isLeaf_of_mem_leaves hx) hleaf
    · intro j c hj
      have hplace := command?_of_spliceChain hchain hj (Nat.le_refl k)
      have hargs : (c.args.map (carry S b k)).map (fun e => (e.link (S k).labels).value) =
          c.args.map (Expr.mapLeaves (fun x => ((carry S b k x).link (S k).labels).value)) := by
        rw [List.map_map]
        refine List.map_congr_left (fun e he => ?_)
        exact value_link_carry (hmissing c (Array.mem_of_getElem? hj) e he)
      rw [Script.command?] at hplace
      rw [Script.value_link hlink, Script.command?, Array.getElem?_map, hplace, Option.map_some, hargs]
  · intro c hc e he name hname hnone hlink
    have hmissing := missing_link_of_spliceChain hchain hlink hc e he
    exact missing_link_carry_label hnone (missing_link_carry hmissing _ hname)

end Chain

/-- A body with a jump to its own label and one to a label of the outermost script, in two copies
behind one command each. The middle script alone cannot be linked. -/
theorem link_spliceChain_nested :
    let jump (name : String) : Command := ⟨⟨3⟩, [.label name]⟩
    let nop : Command := ⟨⟨1⟩, []⟩
    let inner := ((Script.empty.declareLabel "a").push (jump "a")).push (jump "z")
    let middle := (Script.empty.push nop).splice inner
    let outer := ((Script.empty.push nop).splice middle).declareLabel "z"
    let S : Nat → Script := fun | 0 => inner | 1 => middle | _ => outer
    let b : Nat → Nat := fun _ => 1
    (∀ i < 2, Script.Spliced (S i) (b i) (S (i + 1))) ∧ outer.link.missing = none ∧
      outer.link.value.command? 2 = some ⟨⟨3⟩, [.address 2]⟩ ∧
      Settles S b 2 (.label "a") (.address 2) ∧
      outer.link.value.command? 3 = some ⟨⟨3⟩, [.address 4]⟩ ∧
      Settles S b 2 (.label "z") (.address 4) ∧ middle.link.missing ≠ none := by
  intro jump nop inner middle outer S b
  have hchain : ∀ i < 2, Script.Spliced (S i) (b i) (S (i + 1)) := by
    intro i hi
    obtain rfl | rfl : i = 0 ∨ i = 1 := by omega
    · exact ⟨Script.empty.push nop, rfl, .refl⟩
    · exact ⟨Script.empty.push nop, rfl, .declareLabel .refl "z"⟩
  have hlink : outer.link.missing = none := by cbv
  obtain ⟨settle, hsettle, hplace⟩ := (link_spliceChain (k := 2) hchain).1 hlink
  have hown : outer.link.value.command? 2 = some ⟨⟨3⟩, [settle (.label "a")]⟩ := hplace 0 _ rfl
  have hfree : outer.link.value.command? 3 = some ⟨⟨3⟩, [settle (.label "z")]⟩ := hplace 1 _ rfl
  have hown' : outer.link.value.command? 2 = some ⟨⟨3⟩, [.address 2]⟩ := by cbv
  have hfree' : outer.link.value.command? 3 = some ⟨⟨3⟩, [.address 4]⟩ := by cbv
  have hleaf : ∀ name, jump name ∈ inner.commands → Settles S b 2 (.label name) (settle (.label name)) :=
    fun name hname => hsettle _ hname _ List.mem_cons_self _ List.mem_cons_self
  have ha : settle (.label "a") = .address 2 := by simpa using hown.symm.trans hown'
  have hz : settle (.label "z") = .address 4 := by simpa using hfree.symm.trans hfree'
  have hmiddle : middle.link.missing ≠ none := by
    refine (link_spliceChain (k := 1) (fun i hi => hchain i (Nat.lt_succ_of_lt hi))).2 (jump "z") ?_ _
      List.mem_cons_self "z" List.mem_cons_self ?_
    · simp [inner, Script.push, Script.declareLabel, S]
    · intro i hi
      obtain rfl | rfl : i = 0 ∨ i = 1 := by omega
      · rfl
      · rfl
  refine ⟨hchain, hlink, hown', ha ▸ hleaf "a" ?_, hfree', hz ▸ hleaf "z" ?_, hmiddle⟩
  · simp [inner, Script.push, Script.declareLabel, Script.empty]
  · simp [inner, Script.push, Script.declareLabel, Script.empty]

end CommandScript
