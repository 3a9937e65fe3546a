import CommandScript.Proofs.Machine.Steps
import Mathlib
/-! # Scripts that only go forward

A return goes back, so that the address alone does not grow, even if no command jumps or calls
backwards. But a call goes beyond the address it saves. If an address weighs more than twice what
the next one does, then a frame with all its pending calls gets lighter in every step, and a script
that only goes forward halts.
-/
namespace CommandScript

/-- Every command goes beyond its own place, where it goes to an address at all. A call may also go
to zero. -/
def Script.Forward (s : Script) : Prop :=
  ∀ p c, s.command? p = some c → ∀ (b : Builtin) (a : Address), b.type = c.type →
    b.target? c.args = some a → p < a ∨ b = .call ∧ a = 0

namespace Machine
variable {ε : Type} {m : Machine ε} {f : Frame ε}

/-- How many steps there can be from an address. -/
def weight (m : Machine ε) (pc : Address) : Nat := 2 ^ (m.script.size - pc) - 1

theorem weight_eq {pc : Address} (h : pc < m.script.size) :
    m.weight pc = 2 * m.weight (pc + 1) + 1 := by
  obtain ⟨n, hn⟩ := Nat.exists_eq_add_of_lt h
  have hhere : m.script.size - pc = n + 1 := by omega
  have hnext : m.script.size - (pc + 1) = n := by omega
  have hpos : 0 < 2 ^ n := Nat.two_pow_pos n
  rw [weight, weight, hhere, hnext, Nat.pow_succ]
  omega

theorem weight_le {pc pc' : Address} (h : pc ≤ pc') : m.weight pc' ≤ m.weight pc := by
  have hpow : 2 ^ (m.script.size - pc') ≤ 2 ^ (m.script.size - pc) :=
    Nat.pow_le_pow_right (by decide) (Nat.sub_le_sub_left h _)
  exact Nat.sub_le_sub_right hpow 1

theorem weight_size : m.weight m.script.size = 0 := by
  rw [weight, Nat.sub_self, Nat.pow_zero]

/-- The weight of an address and of all calls that are pending there. -/
def load (m : Machine ε) (pc : Address) (saved : List Address) : Nat :=
  m.weight pc + (saved.map m.weight).sum

theorem load_lt_of_moves (hforward : m.script.Forward) (hpc : f.pc < m.script.size) {pc : Address}
    {saved : List Address} (h : m.Moves f pc saved) :
    m.load pc saved < m.load f.pc f.stack.toList := by
  have hhere : m.weight f.pc = 2 * m.weight (f.pc + 1) + 1 := weight_eq hpc
  unfold load
  cases h with
  | next => omega
  | jump hc htype hb ha =>
    rcases hforward _ _ hc _ _ htype ha with hlt | ⟨hcall, -⟩
    · have hbeyond : m.weight pc ≤ m.weight (f.pc + 1) := weight_le hlt
      omega
    · exact absurd hcall hb
  | call hc htype ha hne =>
    rcases hforward _ _ hc _ _ htype ha with hlt | ⟨-, hzero⟩
    · -- Both the target and the return address lie beyond the call.
      have hbeyond : m.weight pc ≤ m.weight (f.pc + 1) := weight_le hlt
      simp only [List.map_cons, List.sum_cons]
      omega
    · exact absurd hzero hne
  | callNothing =>
    rw [weight_size]
    omega
  | ret hstack =>
    rw [hstack, List.map_cons, List.sum_cons]
    omega
  | leave hstack =>
    rw [weight_size, hstack]
    omega

variable [Environment ε]

/-- A run that may take more steps than the frame weighs does not run out of them. -/
theorem ServesBuiltins.runLoop_ne_outOfSteps (hm : m.ServesBuiltins)
    (hforward : m.script.Forward) {limit : Nat} (log : List Event)
    (h : m.load f.pc f.stack.toList < limit) :
    (m.runLoop limit log f).result ≠ .ok .outOfSteps := by
  induction limit generalizing log f with
  | zero => exact absurd h (Nat.not_lt_zero _)
  | succ limit ih =>
    cases hresult : (m.step f).result with
    | error e =>
      rw [runLoop_of_error hresult]
      rintro ⟨⟩
    | ok more =>
      cases more with
      | false =>
        rw [runLoop_of_last hresult]
        rintro ⟨⟩
      | true =>
        rw [runLoop_of_more hresult]
        have hpc : f.pc < m.script.size := by
          by_contra hend
          rw [step_of_size_le (Nat.le_of_not_lt hend)] at hresult
          cases hresult
        have hlighter := load_lt_of_moves hforward hpc (hm.moves_step hpc hresult)
        exact ih _ (Nat.lt_of_lt_of_le hlighter (Nat.le_of_lt_succ h))

/-- A script of built-in commands that only goes forward halts, on any host and from any address
with no calls pending: a run comes to the end of the script or fails, in a number of steps that
depends on the length of the rest of the script only. -/
theorem ServesBuiltins.halts_of_forward (hm : m.ServesBuiltins) (hforward : m.script.Forward)
    (pc : Address) (env : ε) {limit : Nat} (hlimit : 2 ^ (m.script.size - pc) ≤ limit) :
    (m.start limit pc env).result = .ok .finished ∧
        m.finished (m.start limit pc env).frame = true ∨
      ∃ e, (m.start limit pc env).result = .error e := by
  have hpos : 0 < 2 ^ (m.script.size - pc) := Nat.two_pow_pos _
  have hload : m.load pc [] < limit := by
    rw [load, weight, List.map_nil, List.sum_nil]
    omega
  have hnot : (m.start limit pc env).result ≠ .ok .outOfSteps :=
    hm.runLoop_ne_outOfSteps (f := .start pc env) hforward [] hload
  cases hresult : (m.start limit pc env).result with
  | error e => exact .inr ⟨e, rfl⟩
  | ok halt =>
    cases halt with
    | outOfSteps => exact absurd hresult hnot
    | finished =>
      exact .inl ⟨rfl, decide_eq_true (size_le_of_runLoop_eq_finished hresult)⟩

/-- Three calls in a row, each to a later one or to the return behind them, so that the returns go
back again and again. -/
theorem ServesBuiltins.halts_of_forward_nested :
    let script : Script :=
      ⟨#[⟨Builtin.call.type, [.address 2]⟩, ⟨Builtin.call.type, [.integer 3]⟩,
        ⟨Builtin.call.type, [.address 3]⟩, ⟨Builtin.ret.type, []⟩], ∅, ∅, ∅⟩
    script.Forward ∧
      ∃ m : Machine Memory, (Assembly.ofScript script : Assembly Memory).build.result = .ok m ∧
        (m.start 9 0 .empty).result = .ok .finished ∧
        ((m.start 16 0 .empty).result = .ok .finished ∧
            m.finished (m.start 16 0 .empty).frame = true ∨
          ∃ e, (m.start 16 0 .empty).result = .error e) := by
  intro script
  have hforward : script.Forward := by
    intro p c hc b a htype ha
    have hp : p < 4 := (Array.getElem?_eq_some_iff.mp hc).1
    interval_cases p <;> cases hc <;> cases b <;> cases htype <;> cases ha <;> decide
  have hscript : ∀ c ∈ script.commands, ∃ b : Builtin, b.type = c.type := by
    simp [script]
  obtain ⟨m, hbuild, hfinished⟩ : ∃ m : Machine Memory,
      (Assembly.ofScript script : Assembly Memory).build.result = .ok m ∧
        (m.start 9 0 .empty).result = .ok .finished := ⟨_, by cbv, by cbv⟩
  have hm : m.ServesBuiltins := servesBuiltins_of_build hscript hbuild
  have hsame : m.script = script := (Assembly.script_of_build hbuild).1
  refine ⟨hforward, m, hbuild, hfinished, ?_⟩
  refine hm.halts_of_forward ?_ 0 .empty ?_
  · rw [hsame]
    exact hforward
  · rw [hsame]
    decide

end Machine

end CommandScript
