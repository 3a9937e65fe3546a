import CommandScript.Proofs.Machine.Steps
import Mathlib
/-! # Variables that steer nothing

A command looks at variables in two ways only: a conditional jump tests one, and the commands that
change a variable look at the old value of that variable or, for a copy, of another one. Arguments
are evaluated without a look at the variables. So if a set of variables has every tested one, and
the source of every copy into it, then the values outside of it have no influence: two runs that
agree on the set and on the host's record stay together step by step.
-/
namespace CommandScript

/-- The set has every variable that a conditional jump tests, and with the target of a copy the
source. A command whose arguments do not bind does neither. -/
structure Script.SteeredBy (script : Script) (L : Set Variable) : Prop where
  tested : ∀ c ∈ script.commands, ∀ b ∈ [Builtin.jumpIf, .jumpIfFlag, .jumpIfNotFlag],
    b.type = c.type → ∀ args v, b.bound c.args = .ok args → args.var 0 = .ok v → v ∈ L
  copied : ∀ c ∈ script.commands, Builtin.copy.type = c.type → ∀ args source target,
    Builtin.copy.bound c.args = .ok args → args.var 0 = .ok source → args.var 1 = .ok target →
      target ∈ L → source ∈ L

structure Memory.AgreeOn (L : Set Variable) (x y : Memory) : Prop where
  hostCalls : x.hostCalls = y.hostCalls
  get : ∀ v ∈ L, x.storage.get v = y.storage.get v

structure Frame.AgreeOn (L : Set Variable) (f g : Frame Memory) : Prop where
  pc : f.pc = g.pc
  stack : f.stack = g.stack
  env : f.env.AgreeOn L g.env

/-- The same was reported and came of it, on frames that agree. -/
structure Reply.AgreeOn {α : Type} (L : Set Variable) (r s : Reply Memory α) : Prop where
  frame : r.frame.AgreeOn L s.frame
  events : r.events = s.events
  result : r.result = s.result

variable {L : Set Variable}

/-- What is written into the set has to be the same. -/
theorem Memory.AgreeOn.set {x y : Memory} (h : x.AgreeOn L y) {v : Variable} {a b : Int32}
    (hv : v ∈ L → a = b) : (Environment.set x v a).AgreeOn L (Environment.set y v b) := by
  refine ⟨h.hostCalls, fun w hw => ?_⟩
  have hget (z : Memory) (d : Int32) :
      (Environment.set z v d).storage.get w = if w = v then d else z.storage.get w :=
    Storage.get_set z.storage v w d
  rw [hget, hget]
  by_cases hwv : w = v
  · rw [if_pos hwv, if_pos hwv, hv (hwv ▸ hw)]
  · rw [if_neg hwv, if_neg hwv, h.get w hw]

theorem Memory.AgreeOn.hostCall {x y : Memory} (h : x.AgreeOn L y) (values : List Value) :
    (Environment.hostCall x values).env.AgreeOn L (Environment.hostCall y values).env :=
  ⟨congrArg (Array.push · values) h.hostCalls, h.get⟩

namespace Instruction

/-- The condition of the set on one instruction. -/
def SteeredBy (L : Set Variable) : Instruction → Prop
  | jumpIf v _ _ | jumpIfFlag v _ _ | jumpIfNotFlag v _ _ => v ∈ L
  | copy source target => target ∈ L → source ∈ L
  | _ => True

/-- An instruction does the same on hosts that agree. -/
theorem SteeredBy.perform {i : Instruction} (hi : i.SteeredBy L) {script : Script} {pc : Address}
    (hpc : pc < script.size) (stack : CallStack) {x y : Memory} (h : x.AgreeOn L y) :
    (i.perform script ⟨pc, stack, x⟩).AgreeOn L (i.perform script ⟨pc, stack, y⟩) := by
  have hframe (stack' : CallStack) {x' y' : Memory} (h' : x'.AgreeOn L y') :
      (Frame.mk pc stack' x').AgreeOn L ⟨pc, stack', y'⟩ := ⟨rfl, rfl, h'⟩
  have hget {v : Variable} (hv : v ∈ L) : Environment.get x v = Environment.get y v := h.get v hv
  have hchange (v : Variable) (change : Int32 → Int32) :
      (Environment.set x v (change (Environment.get x v))).AgreeOn L
        (Environment.set y v (change (Environment.get y v))) :=
    h.set fun hv => congrArg change (hget hv)
  cases i with
  | nop | goto target => exact ⟨hframe stack h, rfl, rfl⟩
  | hostCall values =>
    rw [perform_hostCall, perform_hostCall]
    exact ⟨hframe stack (h.hostCall values), rfl, rfl⟩
  | set v a => exact ⟨hframe stack (hchange v fun _ => a), rfl, rfl⟩
  | copy source target =>
    exact ⟨hframe stack (h.set fun hv => hget (hi hv)), rfl, rfl⟩
  | setFlag v flag =>
    rw [perform_setFlag, perform_setFlag]
    exact ⟨hframe stack (hchange v (· ||| flag.handle.toInt32)), rfl, rfl⟩
  | clearFlag v flag =>
    rw [perform_clearFlag, perform_clearFlag]
    exact ⟨hframe stack (hchange v (· &&& ~~~flag.handle.toInt32)), rfl, rfl⟩
  | add v delta =>
    rw [perform_add, perform_add]
    exact ⟨hframe stack (hchange v (· + delta)), rfl, rfl⟩
  | call target =>
    by_cases htarget : target = 0
    · subst htarget
      exact ⟨hframe stack h, rfl, rfl⟩
    · rw [Instruction.perform, Action.call_eq htarget hpc, Action.call_eq htarget hpc]
      dsimp only
      cases stack.push (pc + 1) with
      | ok stack' => exact ⟨hframe stack' h, rfl, rfl⟩
      | error e => exact ⟨hframe stack h, rfl, rfl⟩
  | ret =>
    rw [perform_ret, perform_ret]
    exact ⟨hframe stack.pop.2 h, rfl, rfl⟩
  | jumpIf v a target =>
    rw [perform_jumpIf, perform_jumpIf, hget hi]
    exact ⟨hframe stack h, rfl, rfl⟩
  | jumpIfFlag v flag target =>
    rw [perform_jumpIfFlag, perform_jumpIfFlag, hget hi]
    exact ⟨hframe stack h, rfl, rfl⟩
  | jumpIfNotFlag v flag target =>
    rw [perform_jumpIfNotFlag, perform_jumpIfNotFlag, hget hi]
    exact ⟨hframe stack h, rfl, rfl⟩

end Instruction

theorem Script.SteeredBy.instruction {script : Script} (h : script.SteeredBy L) {c : Command}
    (hc : c ∈ script.commands) {b : Builtin} (htype : b.type = c.type) {i : Instruction}
    (hi : b.read c.args = .ok i) : i.SteeredBy L := by
  obtain ⟨rfl, -⟩ := Builtin.read_spec hi
  cases i with
  | copy source target =>
    obtain ⟨args, hargs, hi⟩ := exists_of_bind_eq_ok hi
    obtain ⟨source', hsource, hi⟩ := exists_of_bind_eq_ok (mapError_eq_ok_iff.mp hi)
    obtain ⟨target', htarget, hi⟩ := exists_of_bind_eq_ok hi
    cases hi
    exact h.copied c hc htype args source target hargs hsource htarget
  | jumpIf v x target | jumpIfFlag v x target | jumpIfNotFlag v x target =>
    obtain ⟨args, hargs, hi⟩ := exists_of_bind_eq_ok hi
    obtain ⟨v', hv, hi⟩ := exists_of_bind_eq_ok (mapError_eq_ok_iff.mp hi)
    obtain ⟨x', -, hi⟩ := exists_of_bind_eq_ok hi
    obtain ⟨target', -, hi⟩ := exists_of_bind_eq_ok hi
    cases hi
    exact h.tested c hc _ (by simp [Instruction.builtin]) htype args v hargs hv
  | _ => trivial

/-- The command at the address of two frames that agree does the same on both. -/
theorem Script.SteeredBy.perform {script : Script} (h : script.SteeredBy L) {f g : Frame Memory}
    {c : Command} (hc : script.command? f.pc = some c) {b : Builtin} (htype : b.type = c.type)
    {i : Instruction} (hi : b.read c.args = .ok i) (hagree : f.AgreeOn L g) :
    (i.perform script f).AgreeOn L (i.perform script g) := by
  have hpc : f.pc < script.size := (Array.getElem?_eq_some_iff.mp hc).1
  have hsteered := h.instruction (Array.mem_of_getElem? hc) htype hi
  obtain ⟨pc, stack, x⟩ := f
  obtain ⟨pc', stack', y⟩ := g
  obtain ⟨hsame, hstack, henv⟩ := hagree
  cases hsame
  cases hstack
  exact hsteered.perform hpc stack henv

namespace Machine

/-- The frame that a step leaves, whether it fails or not. -/
def advance {ε : Type} (m : Machine ε) (f : Frame ε) : Frame ε := (m.step f).frame

variable {m : Machine Memory} {f g : Frame Memory}

theorem follow_agreeOn (h : f.AgreeOn L g) (flow : Flow) :
    (follow f flow).AgreeOn L (follow g flow) := by
  cases flow with
  | next => exact ⟨congrArg (· + 1) h.pc, h.stack, h.env⟩
  | jump target => exact ⟨rfl, h.stack, h.env⟩

section Steered
variable (hm : m.ServesBuiltins) (hsteered : m.script.SteeredBy L)
include hm hsteered

theorem step_agreeOn (h : f.AgreeOn L g) : (m.step f).AgreeOn L (m.step g) := by
  cases hc : m.script.command? f.pc with
  | none =>
    have hsize : m.script.size ≤ f.pc := Array.getElem?_eq_none_iff.mp hc
    rw [step_of_size_le hsize, step_of_size_le (h.pc ▸ hsize)]
    exact ⟨h, rfl, rfl⟩
  | some c =>
    have hmem := Array.mem_of_getElem? hc
    have hc' : m.script.command? g.pc = some c := h.pc ▸ hc
    obtain ⟨b, htype, hb⟩ := hm c hmem
    cases hi : b.read c.args with
    | error e =>
      rw [step_of_read_error hc hb hi, step_of_read_error hc' hb hi, h.pc]
      exact ⟨h, rfl, rfl⟩
    | ok i =>
      have hreply := hsteered.perform hc htype hi h
      rcases hf : i.perform m.script f with ⟨f', events, result⟩
      rcases hg : i.perform m.script g with ⟨g', events', result'⟩
      rw [hf, hg] at hreply
      obtain ⟨hframe, rfl, rfl⟩ := hreply
      cases result with
      | error e =>
        rw [step_of_perform_error hc hb hi hf, step_of_perform_error hc' hb hi hg, h.pc]
        exact ⟨hframe, rfl, rfl⟩
      | ok flow =>
        have hafter := follow_agreeOn hframe flow
        rw [step_of_perform_ok hc hb hi hf, step_of_perform_ok hc' hb hi hg, h.pc, finished,
          finished, hafter.pc]
        exact ⟨hafter, rfl, rfl⟩

theorem iterate_agreeOn (h : f.AgreeOn L g) (n : Nat) :
    (m.advance^[n] f).AgreeOn L (m.advance^[n] g) := by
  induction n with
  | zero => exact h
  | succ n ih =>
    rw [Function.iterate_succ_apply', Function.iterate_succ_apply']
    exact (step_agreeOn hm hsteered ih).frame

theorem runLoop_agreeOn (h : f.AgreeOn L g) (limit : Nat) (log : List Event) :
    (m.runLoop limit log f).AgreeOn L (m.runLoop limit log g) := by
  induction limit generalizing f g log with
  | zero => exact ⟨h, rfl, rfl⟩
  | succ limit ih =>
    obtain ⟨hframe, hevents, hresult⟩ := step_agreeOn hm hsteered h
    cases hstep : (m.step g).result with
    | error e =>
      rw [runLoop_of_error (hresult.trans hstep), runLoop_of_error hstep, hevents]
      exact ⟨hframe, rfl, rfl⟩
    | ok more =>
      cases more with
      | false =>
        rw [runLoop_of_last (hresult.trans hstep), runLoop_of_last hstep, hevents]
        exact ⟨hframe, rfl, rfl⟩
      | true =>
        rw [runLoop_of_more (hresult.trans hstep), runLoop_of_more hstep, hevents]
        exact ih hframe _

theorem start_agreeOn {x y : Memory} (h : x.AgreeOn L y) (pc : Address) (limit : Nat) :
    (m.start limit pc x).AgreeOn L (m.start limit pc y) := by
  have hstart : (Frame.start pc x).AgreeOn L (.start pc y) := ⟨rfl, rfl, h⟩
  obtain ⟨hframe, hevents, hresult⟩ := runLoop_agreeOn hm hsteered hstart limit []
  refine ⟨hframe, ?_, hresult⟩
  simp only [start, run, hevents, hresult, hframe.pc]

end Steered

/-- If a set has every variable that is tested, and the source of every copy into it, then no other
variable has any influence. From one address, and from hosts that agree on the set and have recorded
the same calls, steps lead to frames that agree: the address, the pending calls and the record are
the same, and so are the values on the set. The next step does the same on both sides, whether steps
have failed before or not. So does a whole run. -/
theorem ServesBuiltins.lockstep_of_steered (hm : m.ServesBuiltins) (hsteered : m.script.SteeredBy L)
    {x y : Memory} (h : x.AgreeOn L y) (pc : Address) :
    (∀ n, (m.advance^[n] (.start pc x)).AgreeOn L (m.advance^[n] (.start pc y)) ∧
      (m.step (m.advance^[n] (.start pc x))).AgreeOn L (m.step (m.advance^[n] (.start pc y)))) ∧
      ∀ limit, (m.start limit pc x).AgreeOn L (m.start limit pc y) := by
  have hstart : (Frame.start pc x).AgreeOn L (.start pc y) := ⟨rfl, rfl, h⟩
  refine ⟨fun n => ?_, start_agreeOn hm hsteered h pc⟩
  have hn := iterate_agreeOn hm hsteered hstart n
  exact ⟨hn, step_agreeOn hm hsteered hn⟩

/-- Two variables are copied and tested, a third one differs and is changed and copied away. The last
command is a test whose arguments do not bind, so that both runs fail there. -/
theorem ServesBuiltins.lockstep_of_steered_copies :
    let script : Script :=
      ⟨#[⟨Builtin.add.type, [.var ⟨1⟩, .integer 5]⟩, ⟨Builtin.copy.type, [.var ⟨2⟩, .var ⟨0⟩]⟩,
        ⟨Builtin.copy.type, [.var ⟨1⟩, .var ⟨3⟩]⟩,
        ⟨Builtin.jumpIf.type, [.var ⟨0⟩, .integer 1, .address 5]⟩,
        ⟨Builtin.hostCall.type, [.integer 7]⟩, ⟨Builtin.jumpIf.type, [.var ⟨1⟩]⟩], ∅, ∅, ∅⟩
    let L : Set Variable := {⟨0⟩, ⟨2⟩}
    let x : Memory := ⟨⟨[(⟨1⟩, 10)]⟩, #[]⟩
    let y : Memory := ⟨⟨[(⟨1⟩, 20)]⟩, #[]⟩
    script.SteeredBy L ∧ x.AgreeOn L y ∧
      ∃ m : Machine Memory, (Assembly.ofScript script : Assembly Memory).build.result = .ok m ∧
        (m.start 9 0 x).result = .error (.bind (.missingArgument 1 .int)) ∧
        (m.start 9 0 x).frame.env.storage.get ⟨3⟩ = 15 ∧
        (m.start 9 0 y).frame.env.storage.get ⟨3⟩ = 25 ∧
        (m.start 9 0 x).AgreeOn L (m.start 9 0 y) ∧
        (m.step (m.advance^[5] (.start 0 x))).AgreeOn L (m.step (m.advance^[5] (.start 0 y))) := by
  intro script L x y
  have hsteered : script.SteeredBy L := by
    constructor
    · intro c hc b hb htype args v hargs hv
      simp only [script, List.mem_toArray] at hc
      fin_cases hb <;> fin_cases hc <;> cases htype <;> cases hargs
      cases hv
      exact .inl rfl
    · intro c hc htype args source target hargs hsource htarget hmem
      simp only [script, List.mem_toArray] at hc
      fin_cases hc <;> cases htype <;> cases hargs <;> cases hsource <;> cases htarget
      · exact .inr rfl
      · simp [L] at hmem
  have hagree : x.AgreeOn L y := by
    refine ⟨rfl, fun v hv => ?_⟩
    rcases hv with rfl | rfl <;> rfl
  have hscript : ∀ c ∈ script.commands, ∃ b : Builtin, b.type = c.type := by
    simp [script]
  obtain ⟨m, hbuild, hx, hx', hy'⟩ : ∃ m : Machine Memory,
      (Assembly.ofScript script : Assembly Memory).build.result = .ok m ∧
        (m.start 9 0 x).result = .error (.bind (.missingArgument 1 .int)) ∧
        (m.start 9 0 x).frame.env.storage.get ⟨3⟩ = 15 ∧
        (m.start 9 0 y).frame.env.storage.get ⟨3⟩ = 25 := ⟨_, by cbv, by cbv, by cbv, by cbv⟩
  have hm : m.ServesBuiltins := servesBuiltins_of_build hscript hbuild
  have hsame : m.script = script := (Assembly.script_of_build hbuild).1
  obtain ⟨hsteps, hruns⟩ := hm.lockstep_of_steered (hsame ▸ hsteered) hagree 0
  exact ⟨hsteered, hagree, m, hbuild, hx, hx', hy', hruns 9, (hsteps 5).2⟩

end Machine

end CommandScript
