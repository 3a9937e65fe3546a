import CommandScript.Proofs.Machine.Calls
import Mathlib
/-! # Flags as bits

A flag is a mask of 32 bits. Raising it and clearing it change the bits of the mask, in the variable
that is named, and leave every other bit alone. So after a row of such commands each bit is as the
last command that has it in its mask left it, and the jumps on a flag look for a bit of the mask in
what the variable then holds.
-/
namespace CommandScript

/-- A host whose variables hold what was last written to them. -/
def Environment.Stores (ε : Type) [Environment ε] : Prop :=
  ∀ (env : ε) (v w : Variable) (x : Int32),
    get (set env v x) w = if w = v then x else get env w

theorem Environment.stores_storage : Stores Storage :=
  Storage.get_set

theorem Environment.stores_memory : Stores Memory :=
  fun env => stores_storage env.storage

/-- Bit `i` of what a variable holds; the sign is bit 31. -/
def bit (x : Int32) (i : Nat) : Bool := x.toBitVec.getLsbD i

/-- The mask has bit `i`. -/
def Flag.has (flag : Flag) (i : Nat) : Bool := flag.handle.toBitVec.getLsbD i

/-- The mask and what a variable holds have a bit in common. -/
def Flag.Meets (flag : Flag) (x : Int32) : Prop :=
  ∃ i < 32, bit x i = true ∧ flag.has i = true

instance (flag : Flag) (x : Int32) : Decidable (flag.Meets x) :=
  inferInstanceAs (Decidable (∃ i < 32, _))

section Words
variable (flag : Flag) (x : Int32) {i : Nat}

theorem bit_or : bit (x ||| flag.handle.toInt32) i = (bit x i || flag.has i) := by
  rw [bit, Int32.toBitVec_or, BitVec.getLsbD_or]
  rfl

theorem bit_and_not (hi : i < 32) :
    bit (x &&& ~~~flag.handle.toInt32) i = (bit x i && !flag.has i) := by
  rw [bit, Int32.toBitVec_and, Int32.toBitVec_not, BitVec.getLsbD_and, BitVec.getLsbD_not]
  simp only [hi, decide_true, Bool.true_and]
  rfl

theorem bit_and : bit (x &&& flag.handle.toInt32) i = (bit x i && flag.has i) := by
  rw [bit, Int32.toBitVec_and, BitVec.getLsbD_and]
  rfl

/-- A word is zero if none of its bits is set. -/
theorem eq_zero_iff_bit : x = 0 ↔ ∀ i < 32, bit x i = false := by
  rw [← Int32.toBitVec_inj, BitVec.eq_of_getLsbD_eq_iff]
  exact forall₂_congr fun i _ => by rw [Int32.toBitVec_zero, BitVec.getLsbD_zero]; rfl

theorem testFlag_eq_meets : ((x &&& flag.handle.toInt32) != 0) = decide (flag.Meets x) := by
  rw [Bool.eq_iff_iff, bne_iff_ne, decide_eq_true_iff, Ne, eq_zero_iff_bit, Flag.Meets]
  simp only [bit_and, not_forall, Bool.not_eq_false, Bool.and_eq_true, exists_prop]

end Words

/-- A command that raises a flag of a variable or clears it. -/
structure FlagChange where
  raises : Bool
  target : Variable
  flag : Flag

namespace FlagChange

def instruction (c : FlagChange) : Instruction :=
  if c.raises then .setFlag c.target c.flag else .clearFlag c.target c.flag

/-- The change decides bit `i` of `v`: it is made to `v`, and its mask has the bit. -/
def decides (c : FlagChange) (v : Variable) (i : Nat) : Bool :=
  c.target = v && c.flag.has i

variable {ε : Type} [Environment ε]

/-- The host after the change. -/
def apply (env : ε) (c : FlagChange) : ε :=
  let x := Environment.get env c.target
  Environment.set env c.target
    (if c.raises then x ||| c.flag.handle.toInt32 else x &&& ~~~c.flag.handle.toInt32)

theorem perform_instruction (c : FlagChange) (script : Script) (f : Frame ε) :
    c.instruction.perform script f = ⟨{ f with env := apply f.env c }, [], .ok .next⟩ := by
  obtain ⟨raises, target, flag⟩ := c
  cases raises with
  | true => exact Instruction.perform_setFlag target script f flag
  | false => exact Instruction.perform_clearFlag target script f flag

theorem get_apply_of_ne (hhost : Environment.Stores ε) {c : FlagChange} {v : Variable}
    (hv : c.target ≠ v) (env : ε) :
    Environment.get (apply env c) v = Environment.get env v := by
  rw [apply, hhost, if_neg (Ne.symm hv)]

/-- One change settles the bits that it decides, and no others. -/
theorem bit_apply (hhost : Environment.Stores ε) (env : ε) (c : FlagChange) (v : Variable) {i : Nat}
    (hi : i < 32) :
    bit (Environment.get (apply env c) v) i =
      if c.decides v i then c.raises else bit (Environment.get env v) i := by
  by_cases hv : c.target = v
  · subst hv
    have hdecides : c.decides c.target i = c.flag.has i := by simp [decides]
    rw [hdecides, apply, hhost, if_pos rfl]
    cases c.raises with
    | true =>
      rw [if_pos rfl, bit_or]
      cases c.flag.has i <;> simp
    | false =>
      rw [if_neg Bool.false_ne_true, bit_and_not _ _ hi]
      cases c.flag.has i <;> simp
  · have hdecides : c.decides v i = false := by simp [decides, hv]
    rw [hdecides, get_apply_of_ne hhost hv, if_neg Bool.false_ne_true]

/-- The last of the changes that decides the bit. -/
def last? (changes : List FlagChange) (v : Variable) (i : Nat) : Option FlagChange :=
  (changes.filter (·.decides v i)).getLast?

theorem last?_eq_none_iff {changes : List FlagChange} {v : Variable} {i : Nat} :
    last? changes v i = none ↔ ∀ c ∈ changes, c.decides v i = false := by
  rw [last?, List.getLast?_eq_none_iff, List.filter_eq_nil_iff]
  simp only [Bool.not_eq_true]

theorem bit_foldl_apply (hhost : Environment.Stores ε) (env : ε) (changes : List FlagChange)
    (v : Variable) {i : Nat} (hi : i < 32) :
    bit (Environment.get (changes.foldl apply env) v) i =
      ((last? changes v i).map raises).getD (bit (Environment.get env v) i) := by
  induction changes using List.reverseRecOn with
  | nil => rfl
  | append_singleton changes c ih =>
    rw [List.foldl_append, List.foldl_cons, List.foldl_nil, bit_apply hhost _ _ _ hi, ih, last?,
      last?, List.filter_append]
    cases hc : c.decides v i with
    | true => simp [hc]
    | false => simp [hc]

theorem get_foldl_apply_of_ne (hhost : Environment.Stores ε) {changes : List FlagChange}
    {v : Variable} (hv : ∀ c ∈ changes, c.target ≠ v) (env : ε) :
    Environment.get (changes.foldl apply env) v = Environment.get env v := by
  induction changes generalizing env with
  | nil => rfl
  | cons c changes ih =>
    rw [List.foldl_cons, ih fun d hd => hv d (List.mem_cons_of_mem c hd)]
    exact get_apply_of_ne hhost (hv c List.mem_cons_self) env

end FlagChange

namespace Machine
variable {ε : Type} {m : Machine ε} {f : Frame ε}

theorem follow_jumpIf (p : Prop) [Decidable p] (a : Address) :
    follow f (.jumpIf (decide p) a) = { f with pc := if p then a else f.pc + 1 } := by
  by_cases hp : p
  · rw [if_pos hp, decide_eq_true hp]
    rfl
  · rw [if_neg hp, decide_eq_false hp]
    rfl

variable [Environment ε]

/-- From the address of the frame on, the changes stand in the script one after another. -/
def HasRow (m : Machine ε) (f : Frame ε) (changes : List FlagChange) : Prop :=
  ∀ k c, changes[k]? = some c → m.Reads { f with pc := f.pc + k } (.ok c.instruction)

theorem after_row {changes : List FlagChange} (h : m.HasRow f changes) :
    m.after f changes.length = .ok
      { f with pc := f.pc + changes.length, env := changes.foldl FlagChange.apply f.env } := by
  induction changes using List.reverseRecOn with
  | nil => rfl
  | append_singleton changes c ih =>
    have hrow : m.HasRow f changes := fun k d hd =>
      h k d (by rw [List.getElem?_append_left (List.getElem?_eq_some_iff.mp hd).1, hd])
    have hlast : m.Reads { f with pc := f.pc + changes.length } (.ok c.instruction) :=
      h _ c List.getElem?_concat_length
    -- What is read depends on the address alone, so the earlier changes do not matter to it.
    obtain ⟨⟨more, hmore⟩, hframe⟩ := Reads.step_perform_ok
      (f := { f with pc := f.pc + changes.length, env := changes.foldl FlagChange.apply f.env })
      hlast (c.perform_instruction _ _)
    rw [List.length_append, List.length_singleton, after, ih hrow, ok_bind, hmore, ok_bind, hframe,
      List.foldl_append]
    rfl

section Jumps
variable {v : Variable} {flag : Flag} {a : Address}

theorem step_jumpIfFlag (h : m.Reads f (.ok (.jumpIfFlag v flag a))) :
    (∃ more, (m.step f).result = .ok more) ∧ (m.step f).frame =
      { f with pc := if flag.Meets (Environment.get f.env v) then a else f.pc + 1 } := by
  obtain ⟨hok, hframe⟩ := h.step_perform_ok (Instruction.perform_jumpIfFlag v a m.script f flag)
  rw [hframe, testFlag_eq_meets, follow_jumpIf]
  exact ⟨hok, rfl⟩

theorem step_jumpIfNotFlag (h : m.Reads f (.ok (.jumpIfNotFlag v flag a))) :
    (∃ more, (m.step f).result = .ok more) ∧ (m.step f).frame =
      { f with pc := if flag.Meets (Environment.get f.env v) then f.pc + 1 else a } := by
  obtain ⟨hok, hframe⟩ := h.step_perform_ok (Instruction.perform_jumpIfNotFlag v a m.script f flag)
  rw [hframe, testFlag_eq_meets, ← decide_not, follow_jumpIf, ite_not]
  exact ⟨hok, rfl⟩

end Jumps

/-- A row of commands that raise and clear flags always gets to its end. There a bit of a variable
is set if the last command that decides it raised it, or if none decides it and it was set before;
and a variable that no command names is as it was. In any frame with this host a jump on a flag is
taken if the mask meets what the variable holds, and the opposite jump if it does not. -/
theorem flags_bitwise (hhost : Environment.Stores ε) {changes : List FlagChange}
    (hrow : m.HasRow f changes) :
    ∃ g, m.after f changes.length = .ok g ∧ g.pc = f.pc + changes.length ∧ g.stack = f.stack ∧
      (∀ v, ∀ i < 32, bit (Environment.get g.env v) i = true ↔
        (∃ c, FlagChange.last? changes v i = some c ∧ c.raises = true) ∨
          (∀ c ∈ changes, c.decides v i = false) ∧ bit (Environment.get f.env v) i = true) ∧
      (∀ v, (∀ c ∈ changes, c.target ≠ v) → Environment.get g.env v = Environment.get f.env v) ∧
      ∀ h : Frame ε, h.env = g.env → ∀ v flag a,
        (m.Reads h (.ok (.jumpIfFlag v flag a)) →
          (∃ more, (m.step h).result = .ok more) ∧ (m.step h).frame =
            { h with pc := if flag.Meets (Environment.get g.env v) then a else h.pc + 1 }) ∧
        (m.Reads h (.ok (.jumpIfNotFlag v flag a)) →
          (∃ more, (m.step h).result = .ok more) ∧ (m.step h).frame =
            { h with pc := if flag.Meets (Environment.get g.env v) then h.pc + 1 else a }) := by
  refine ⟨_, after_row hrow, rfl, rfl, fun v i hi => ?_,
    fun v hv => FlagChange.get_foldl_apply_of_ne hhost hv f.env, fun h henv v flag a => ?_⟩
  · rw [FlagChange.bit_foldl_apply hhost f.env changes v hi, ← FlagChange.last?_eq_none_iff]
    cases hlast : FlagChange.last? changes v i with
    | none => simp
    | some c => simp
  · rw [← henv]
    exact ⟨step_jumpIfFlag, step_jumpIfNotFlag⟩

/-- Masks that overlap, up to the sign of the variable, and the two jumps on the sign. -/
theorem flags_bitwise_sign :
    let script : Script :=
      ⟨#[⟨Builtin.setFlag.type, [.var ⟨0⟩, .flag ⟨0x80000001⟩]⟩,
        ⟨Builtin.clearFlag.type, [.var ⟨0⟩, .flag ⟨3⟩]⟩,
        ⟨Builtin.setFlag.type, [.var ⟨1⟩, .flag ⟨2⟩]⟩,
        ⟨Builtin.jumpIfFlag.type, [.var ⟨0⟩, .flag ⟨0x80000000⟩, .address 9]⟩,
        ⟨Builtin.jumpIfNotFlag.type, [.var ⟨0⟩, .flag ⟨0x80000000⟩, .address 9]⟩], ∅, ∅, ∅⟩
    let changes : List FlagChange :=
      [⟨true, ⟨0⟩, ⟨0x80000001⟩⟩, ⟨false, ⟨0⟩, ⟨3⟩⟩, ⟨true, ⟨1⟩, ⟨2⟩⟩]
    let start : Frame Memory := .start 0 ⟨⟨[(⟨0⟩, 10)]⟩, #[]⟩
    ∃ m : Machine Memory, (Assembly.ofScript script : Assembly Memory).build.result = .ok m ∧
      Environment.Stores Memory ∧ m.HasRow start changes ∧
      ∃ g, m.after start 3 = .ok g ∧ g.pc = 3 ∧ bit (Environment.get g.env ⟨0⟩) 31 = true ∧
        (∀ i < 2, bit (Environment.get g.env ⟨0⟩) i = false) ∧
        bit (Environment.get g.env ⟨0⟩) 3 = true ∧ bit (Environment.get g.env ⟨1⟩) 1 = true ∧
        Environment.get g.env ⟨2⟩ = 0 ∧ (m.step g).frame.pc = 9 ∧
        (m.step { g with pc := 4 }).frame.pc = 5 := by
  intro script changes start
  obtain ⟨m, hbuild⟩ : ∃ m : Machine Memory,
      (Assembly.ofScript script : Assembly Memory).build.result = .ok m := ⟨_, by cbv⟩
  have hsame : m.script = script := (Assembly.script_of_build hbuild).1
  have hm : m.ServesBuiltins := servesBuiltins_of_build (by simp [script]) hbuild
  have hreads {f : Frame Memory} {b : Builtin} {args : List Expr} {i : Instruction}
      (hc : script.command? f.pc = some ⟨b.type, args⟩) (hi : b.read args = .ok i) :
      m.Reads f (.ok i) :=
    hi ▸ hm.reads (hsame ▸ hc) rfl
  have hrow : m.HasRow start changes := by
    intro k c hc
    rcases k with _ | _ | _ | k <;> cases hc <;> exact hreads rfl rfl
  have hhost := Environment.stores_memory
  obtain ⟨g, hg, hpc, -, hbits, hother, hjumps⟩ := flags_bitwise hhost hrow
  have hplace : g.pc = 3 := hpc
  have hmeets : Flag.Meets ⟨0x80000000⟩ (Environment.get g.env ⟨0⟩) :=
    ⟨31, by decide, (hbits ⟨0⟩ 31 (by decide)).mpr (.inl ⟨_, rfl, rfl⟩), rfl⟩
  have hjump := ((hjumps g rfl ⟨0⟩ ⟨0x80000000⟩ 9).1
    (hreads (b := .jumpIfFlag) (by rw [hplace]; rfl) rfl)).2
  have hstay := ((hjumps { g with pc := 4 } rfl ⟨0⟩ ⟨0x80000000⟩ 9).2 (hreads rfl rfl)).2
  rw [if_pos hmeets] at hjump hstay
  have hcleared : ∀ i < 2, bit (Environment.get g.env ⟨0⟩) i = false := by
    intro i hi
    rw [← Bool.not_eq_true, hbits ⟨0⟩ i (by omega)]
    rintro (⟨c, hlast, hraises⟩ | ⟨hnone, -⟩)
    · interval_cases i <;> cases hlast <;> cases hraises
    · interval_cases i <;> revert hnone <;> decide
  exact ⟨m, hbuild, hhost, hrow, g, hg, hplace,
    (hbits ⟨0⟩ 31 (by decide)).mpr (.inl ⟨_, rfl, rfl⟩), hcleared,
    (hbits ⟨0⟩ 3 (by decide)).mpr (.inr ⟨by decide, by cbv⟩),
    (hbits ⟨1⟩ 1 (by decide)).mpr (.inl ⟨_, rfl, rfl⟩), hother ⟨2⟩ (by decide),
    congrArg Frame.pc hjump, congrArg Frame.pc hstay⟩

end Machine

end CommandScript
