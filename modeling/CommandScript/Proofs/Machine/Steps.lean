import CommandScript.Proofs.Machine.Calls
import Mathlib
/-! # What a step does

A step reads an instruction off a command and carries it out. The instruction goes on to the next
command, or to its target, which is the command's address argument bound by itself, or to where the
pending calls send it. Nothing else moves a frame. A step that fails has failed on the arguments, on
a full stack or on the host, and leaves the frame where it is.
-/
namespace CommandScript

theorem Expr.eval_of_evalAll {es : List Expr} {values : List Value} (h : evalAll es = .ok values)
    {k : Nat} {v : Value} (hv : values[k]? = some v) : ∃ e, es[k]? = some e ∧ e.eval = .ok v := by
  induction es generalizing values k with
  | nil =>
    cases h
    cases hv
  | cons e es ih =>
    rw [evalAll, List.mapM_cons] at h
    obtain ⟨first, hfirst, h⟩ := exists_of_bind_eq_ok h
    obtain ⟨rest, hrest, h⟩ := exists_of_bind_eq_ok h
    cases h
    cases k with
    | zero =>
      cases hv
      exact ⟨e, rfl, hfirst⟩
    | succ k => exact ih hrest hv

/-- The argument at a place is that of the parameter at the place. -/
theorem Binding.bindParam_of_bindFrom {values : List Value} {params : List Param} {place : Nat}
    {args : Arguments} (h : bindFrom values place params = .ok args) {k : Nat} {a : Value}
    (ha : args[k]? = some a) :
    ∃ p, params[k]? = some p ∧ bindParam values (place + k) p = .ok a := by
  induction params generalizing place args k with
  | nil =>
    cases h
    cases ha
  | cons p params ih =>
    obtain ⟨first, hfirst, h⟩ := exists_of_bind_eq_ok h
    obtain ⟨rest, hrest, h⟩ := exists_of_bind_eq_ok h
    cases h
    cases k with
    | zero =>
      cases ha
      exact ⟨p, rfl, hfirst⟩
    | succ k =>
      obtain ⟨q, hq, hbound⟩ := ih hrest ha
      rw [Nat.add_right_comm] at hbound
      exact ⟨q, hq, hbound⟩

theorem Arguments.getElem?_of_address {args : Arguments} {place : Nat} {a : Address}
    (h : args.address place = .ok a) : args[place]? = some (.address a) := by
  unfold address read at h
  split at h
  · cases h
  · rename_i v hv
    rw [hv]
    cases v <;> cases h
    rfl

namespace Instruction

/-- Where an instruction may go besides the next command. -/
def target? : Instruction → Option Address
  | goto a | call a | jumpIf _ _ a | jumpIfFlag _ _ a | jumpIfNotFlag _ _ a => some a
  | _ => none

/-- The command that the instruction is one of. -/
def builtin : Instruction → Builtin
  | nop => .nop
  | hostCall _ => .hostCall
  | goto _ => .goto
  | set _ _ => .set
  | copy _ _ => .copy
  | setFlag _ _ => .setFlag
  | clearFlag _ _ => .clearFlag
  | add _ _ => .add
  | call _ => .call
  | ret => .ret
  | jumpIf _ _ _ => .jumpIf
  | jumpIfFlag _ _ _ => .jumpIfFlag
  | jumpIfNotFlag _ _ _ => .jumpIfNotFlag

end Instruction

namespace Builtin

/-- The place of the argument that says where a command may go. -/
def addressPlace? : Builtin → Option Nat
  | goto | call => some 0
  | jumpIf | jumpIfFlag | jumpIfNotFlag => some 2
  | _ => none

/-- What a command's address argument comes to when it is evaluated and bound by itself. -/
def target? (b : Builtin) (args : List Expr) : Option Address := do
  let place ← b.addressPlace?
  let e ← args[place]?
  let v ← e.eval.toOption
  match Binding.coerce place .address v with
  | .ok (.address a) => some a
  | _ => none

theorem target?_of_address {b : Builtin} {place : Nat} {args : List Expr} {a : Address}
    (hplace : b.addressPlace? = some place) (ha : args[place]? = some (.address a)) :
    b.target? args = some a := by
  simp only [target?, hplace, ha, Option.bind_eq_bind, Option.bind_some]
  rfl

theorem target?_of_bound {b : Builtin} {place : Nat} (hplace : b.addressPlace? = some place)
    (hparam : b.signature[place]? = some (.required .address)) {args : List Expr}
    {bound : Arguments} (hbound : b.bound args = .ok bound) {a : Address}
    (ha : bound.address place = .ok a) : b.target? args = some a := by
  obtain ⟨values, hvalues, hbind⟩ := exists_of_bind_eq_ok hbound
  obtain ⟨p, hp, hvalue⟩ := Binding.bindParam_of_bindFrom (mapError_eq_ok_iff.mp hbind)
    (Arguments.getElem?_of_address ha)
  rw [hparam] at hp
  cases hp
  rw [Nat.zero_add] at hvalue
  simp only [Binding.bindParam, Param.required, Option.getD_none] at hvalue
  cases hv : values[place]? with
  | none =>
    rw [hv] at hvalue
    cases hvalue
  | some v =>
    rw [hv] at hvalue
    obtain ⟨e, he, heval⟩ := Expr.eval_of_evalAll (mapError_eq_ok_iff.mp hvalues) hv
    dsimp only at hvalue
    simp only [target?, hplace, he, heval, Except.toOption, Option.bind_eq_bind, Option.bind_some,
      hvalue]

/-- A command is read as an instruction of its own, which goes nowhere but to what the address
argument comes to. -/
theorem read_spec {b : Builtin} {args : List Expr} {i : Instruction} (h : b.read args = .ok i) :
    i.builtin = b ∧ ∀ a, i.target? = some a → b.target? args = some a := by
  cases b with
  | nop | ret =>
    cases h
    exact ⟨rfl, nofun⟩
  | hostCall =>
    obtain ⟨values, -, h⟩ := exists_of_bind_eq_ok h
    cases h
    exact ⟨rfl, nofun⟩
  | goto | call =>
    obtain ⟨bound, hbound, h⟩ := exists_of_bind_eq_ok h
    obtain ⟨target, htarget, h⟩ := exists_of_bind_eq_ok (mapError_eq_ok_iff.mp h)
    cases h
    refine ⟨rfl, ?_⟩
    rintro _ ⟨⟩
    exact target?_of_bound rfl rfl hbound htarget
  | set | add | copy | setFlag | clearFlag =>
    obtain ⟨bound, -, h⟩ := exists_of_bind_eq_ok h
    obtain ⟨v, -, h⟩ := exists_of_bind_eq_ok (mapError_eq_ok_iff.mp h)
    obtain ⟨x, -, h⟩ := exists_of_bind_eq_ok h
    cases h
    exact ⟨rfl, nofun⟩
  | jumpIf | jumpIfFlag | jumpIfNotFlag =>
    obtain ⟨bound, hbound, h⟩ := exists_of_bind_eq_ok h
    obtain ⟨v, -, h⟩ := exists_of_bind_eq_ok (mapError_eq_ok_iff.mp h)
    obtain ⟨x, -, h⟩ := exists_of_bind_eq_ok h
    obtain ⟨target, htarget, h⟩ := exists_of_bind_eq_ok h
    cases h
    refine ⟨rfl, ?_⟩
    rintro _ ⟨⟩
    exact target?_of_bound rfl rfl hbound htarget

end Builtin

def Flow.mapTarget (move : Address → Address) : Flow → Flow
  | next => next
  | jump a => jump (move a)

theorem Flow.mapTarget_jumpIf (move : Address → Address) (condition : Bool) (a : Address) :
    (Flow.jumpIf condition a).mapTarget move = .jumpIf condition (move a) := by
  cases condition <;> rfl

theorem Flow.eq_of_jumpIf {condition : Bool} {a target : Address}
    (h : Flow.jumpIf condition a = .jump target) : a = target := by
  cases condition <;> cases h
  rfl

namespace Instruction

/-- The instruction with another target. -/
def mapTarget (move : Address → Address) : Instruction → Instruction
  | goto a => goto (move a)
  | call a => call (move a)
  | jumpIf v x a => jumpIf v x (move a)
  | jumpIfFlag v flag a => jumpIfFlag v flag (move a)
  | jumpIfNotFlag v flag a => jumpIfNotFlag v flag (move a)
  | i => i

@[simp] theorem mapTarget_id (i : Instruction) : i.mapTarget id = i := by
  cases i <;> rfl

variable {ε : Type} [Environment ε]

theorem perform_hostCall (values : List Value) (script : Script) (f : Frame ε) :
    (hostCall values).perform script f =
      ⟨{ f with env := (Environment.hostCall f.env values).env },
        (Environment.hostCall f.env values).events,
        (Environment.hostCall f.env values).result.map (fun _ => .next)⟩ := by
  have hhost : (Action.hostCall values : Action ε Unit) script f =
      ⟨{ f with env := (Environment.hostCall f.env values).env },
        (Environment.hostCall f.env values).events,
        (Environment.hostCall f.env values).result⟩ := rfl
  cases hresult : (Environment.hostCall f.env values).result with
  | ok =>
    rw [hresult] at hhost
    rw [perform, Action.bind_of_ok hhost]
    simp [pure, Action.pure, Except.map]
  | error e =>
    rw [hresult] at hhost
    rw [perform, Action.bind_of_error hhost]
    rfl

/-- What an instruction does to a host when nothing else is there. -/
def alone (i : Instruction) (env : ε) : Reply ε Flow := i.perform .empty (.start 0 env)

/-- An instruction that is neither a call nor a return looks at the host only and changes the host
only. Another target changes nothing but where it jumps. -/
theorem perform_mapTarget {i : Instruction} (hcall : ∀ a, i ≠ call a) (hret : i ≠ ret)
    (move : Address → Address) (script : Script) (f : Frame ε) :
    (i.mapTarget move).perform script f =
      ⟨{ f with env := (i.alone f.env).frame.env }, (i.alone f.env).events,
        (i.alone f.env).result.map (Flow.mapTarget move)⟩ := by
  have hjump (condition : Bool) (a : Address) :
      (Except.ok (Flow.jumpIf condition a) : Except RuntimeError Flow).map (Flow.mapTarget move) =
        .ok (.jumpIf condition (move a)) :=
    congrArg Except.ok (Flow.mapTarget_jumpIf move condition a)
  cases i with
  | call a => exact absurd rfl (hcall a)
  | ret => exact absurd rfl hret
  | hostCall values =>
    simp only [alone, mapTarget, perform_hostCall, Frame.start]
    cases (Environment.hostCall f.env values).result <;> rfl
  | jumpIf v x a | jumpIfFlag v flag a | jumpIfNotFlag v flag a =>
    refine Eq.trans ?_ (congrArg (Reply.mk _ _) (hjump _ a).symm)
    rfl
  | _ => rfl

theorem target?_of_alone {i : Instruction} (hcall : ∀ a, i ≠ call a) (hret : i ≠ ret) {env : ε}
    {a : Address} (h : (i.alone env).result = .ok (.jump a)) : i.target? = some a := by
  cases i with
  | call a => exact absurd rfl (hcall a)
  | ret => exact absurd rfl hret
  | hostCall values =>
    rw [alone, perform_hostCall] at h
    cases hresult : (Environment.hostCall env values).result <;>
      simp [Frame.start, hresult, Except.map] at h
  | goto target =>
    cases h
    rfl
  | jumpIf v x target | jumpIfFlag v flag target | jumpIfNotFlag v flag target =>
    exact congrArg some (Flow.eq_of_jumpIf (Except.ok.inj h))
  | _ => cases h

theorem perform_ret (script : Script) (f : Frame ε) :
    ret.perform script f =
      ⟨{ f with stack := f.stack.pop.2 }, [], .ok (.jump (f.stack.pop.1.getD script.size))⟩ := by
  rw [perform, Action.ret]
  rcases f.stack.pop with ⟨_ | pc, stack⟩ <;> rfl

/-- An instruction fails on a full stack, and then changes nothing, or on the host. -/
theorem perform_error_cases {i : Instruction} {script : Script} {f g : Frame ε}
    {events : List Event} {e : RuntimeError} (hpc : f.pc < script.size)
    (h : i.perform script f = ⟨g, events, .error e⟩) :
    g = f ∨ ∃ values, (Environment.hostCall f.env values).result = .error e ∧
      g = { f with env := (Environment.hostCall f.env values).env } := by
  cases i with
  | call a =>
    by_cases ha : a = 0
    · subst ha
      cases h
    · rw [perform, Action.call_eq ha hpc] at h
      cases hpush : f.stack.push (f.pc + 1) with
      | ok stack =>
        rw [hpush] at h
        cases h
      | error cause =>
        rw [hpush] at h
        cases h
        exact .inl rfl
  | ret =>
    rw [perform_ret] at h
    cases h
  | hostCall values =>
    rw [perform_hostCall] at h
    cases hresult : (Environment.hostCall f.env values).result with
    | ok =>
      rw [hresult] at h
      cases h
    | error cause =>
      rw [hresult] at h
      cases h
      exact .inr ⟨values, hresult, rfl⟩
  | _ => cases h

end Instruction

namespace Machine
variable {ε : Type} {m : Machine ε} {f : Frame ε}

theorem step_of_size_le (h : m.script.size ≤ f.pc) : m.step f = ⟨f, [], .ok false⟩ := by
  have hnone : m.script.command? f.pc = none := Array.getElem?_eq_none h
  simp only [step, hnone]

theorem size_le_of_step_eq_false (h : (m.step f).result = .ok false) :
    m.script.size ≤ (m.step f).frame.pc := by
  unfold step at h ⊢
  cases hc : m.script.command? f.pc with
  | none => exact Array.getElem?_eq_none_iff.mp hc
  | some c =>
    simp only [hc] at h ⊢
    cases hb : m.handler? c.type with
    | none =>
      simp only [hb] at h
      cases h
    | some handler =>
      simp only [hb] at h ⊢
      cases hresult : (m.act f (handler c.args)).result with
      | error e =>
        simp only [hresult] at h
        cases h
      | ok flow =>
        simp only [hresult, finished, Except.ok.injEq, Bool.not_eq_false', decide_eq_true_eq] at h ⊢
        exact h

section Run
variable {limit : Nat} {log : List Event}

theorem runLoop_of_error {e : RuntimeError} (h : (m.step f).result = .error e) :
    m.runLoop (limit + 1) log f =
      ⟨(m.step f).frame, ((m.step f).events.reverse ++ log).reverse, .error e⟩ := by
  simp only [runLoop, h]

theorem runLoop_of_last (h : (m.step f).result = .ok false) :
    m.runLoop (limit + 1) log f =
      ⟨(m.step f).frame, ((m.step f).events.reverse ++ log).reverse, .ok .finished⟩ := by
  simp only [runLoop, h]

theorem runLoop_of_more (h : (m.step f).result = .ok true) :
    m.runLoop (limit + 1) log f =
      m.runLoop limit ((m.step f).events.reverse ++ log) (m.step f).frame := by
  simp only [runLoop, h]

theorem size_le_of_runLoop_eq_finished (h : (m.runLoop limit log f).result = .ok .finished) :
    m.script.size ≤ (m.runLoop limit log f).frame.pc := by
  induction limit generalizing log f with
  | zero => cases h
  | succ limit ih =>
    cases hresult : (m.step f).result with
    | error e =>
      rw [runLoop_of_error hresult] at h
      cases h
    | ok more =>
      cases more with
      | false =>
        rw [runLoop_of_last hresult]
        exact size_le_of_step_eq_false hresult
      | true =>
        rw [runLoop_of_more hresult] at h ⊢
        exact ih h

end Run

/-- Where a step may lead from a command, and which calls are pending there. -/
inductive Moves (m : Machine ε) (f : Frame ε) : Address → List Address → Prop
  | next : Moves m f (f.pc + 1) f.stack.toList
  | jump {c : Command} {b : Builtin} {a : Address} (hc : m.script.command? f.pc = some c)
    (htype : b.type = c.type) (hb : b ≠ .call) (ha : b.target? c.args = some a) :
    Moves m f a f.stack.toList
  | call {c : Command} {a : Address} (hc : m.script.command? f.pc = some c)
    (htype : Builtin.call.type = c.type) (ha : Builtin.call.target? c.args = some a) (hne : a ≠ 0) :
    Moves m f a ((f.pc + 1) :: f.stack.toList)
  | callNothing : Moves m f m.script.size f.stack.toList
  | ret {a : Address} {saved : List Address} (h : f.stack.toList = a :: saved) : Moves m f a saved
  | leave (h : f.stack.toList = []) : Moves m f m.script.size []

variable [Environment ε]

section Moves
variable {c : Command} {b : Builtin} {i : Instruction} {g : Frame ε} {events : List Event}
  {flow : Flow}

theorem moves_of_call {a : Address} (hc : m.script.command? f.pc = some c)
    (htype : Builtin.call.type = c.type) (ha : Builtin.call.target? c.args = some a)
    (hi : (Instruction.call a).perform m.script f = ⟨g, events, .ok flow⟩) :
    m.Moves f (follow g flow).pc (follow g flow).stack.toList := by
  by_cases hzero : a = 0
  · subst hzero
    cases hi
    exact .callNothing
  · have hpc : f.pc < m.script.size := (Array.getElem?_eq_some_iff.mp hc).1
    rw [Instruction.perform, Action.call_eq hzero hpc] at hi
    cases hpush : f.stack.push (f.pc + 1) with
    | error e =>
      rw [hpush] at hi
      cases hi
    | ok stack =>
      rw [hpush] at hi
      cases hi
      dsimp only [follow]
      rw [CallStack.toList_push hpush]
      exact .call hc htype ha hzero

theorem moves_of_ret (hi : Instruction.ret.perform m.script f = ⟨g, events, .ok flow⟩) :
    m.Moves f (follow g flow).pc (follow g flow).stack.toList := by
  obtain ⟨hhead, htail⟩ := f.stack.toList_pop
  rw [Instruction.perform_ret, hhead] at hi
  cases hi
  dsimp only [follow]
  rw [htail]
  cases hstack : f.stack.toList with
  | nil => exact .leave hstack
  | cons a saved => exact .ret hstack

theorem moves_of_local (hc : m.script.command? f.pc = some c) (htype : b.type = c.type)
    (hb : b ≠ .call) (ha : ∀ a, i.target? = some a → b.target? c.args = some a)
    (hcall : ∀ a, i ≠ .call a) (hret : i ≠ .ret)
    (hi : i.perform m.script f = ⟨g, events, .ok flow⟩) :
    m.Moves f (follow g flow).pc (follow g flow).stack.toList := by
  have hlocal := Instruction.perform_mapTarget hcall hret id m.script f
  rw [Instruction.mapTarget_id, hi] at hlocal
  injection hlocal with hg _ hresult
  subst hg
  cases halone : (i.alone f.env).result with
  | error e =>
    rw [halone] at hresult
    cases hresult
  | ok flow' =>
    rw [halone] at hresult
    cases flow' with
    | next =>
      cases hresult
      exact .next
    | jump a =>
      cases hresult
      exact .jump hc htype hb (ha a (Instruction.target?_of_alone hcall hret halone))

end Moves

theorem ServesBuiltins.moves_step (hm : m.ServesBuiltins) {more : Bool}
    (hpc : f.pc < m.script.size) (h : (m.step f).result = .ok more) :
    m.Moves f (m.step f).frame.pc (m.step f).frame.stack.toList := by
  rcases hm.step_ok_cases h with
    ⟨hnone, -⟩ | ⟨c, b, i, g, events, flow, hc, htype, hread, hi, hframe⟩
  · exact absurd hpc (Nat.not_lt.mpr (Array.getElem?_eq_none_iff.mp hnone))
  · rw [hframe]
    obtain ⟨hbuiltin, htarget⟩ := Builtin.read_spec hread
    subst hbuiltin
    cases i with
    | call a => exact moves_of_call hc htype (htarget a rfl) hi
    | ret => exact moves_of_ret hi
    | _ => exact moves_of_local hc htype nofun htarget nofun nofun hi

/-- A step that fails has changed nothing but what the host has changed in a call that failed. -/
theorem step_error_cases {c : Command} {b : Builtin} {e : RuntimeError}
    (hc : m.script.command? f.pc = some c) (hb : m.handler? c.type = some b.handler)
    (he : (m.step f).result = .error e) :
    (m.step f).frame = f ∨ ∃ values, (Environment.hostCall f.env values).result = .error e ∧
      (m.step f).frame = { f with env := (Environment.hostCall f.env values).env } := by
  have hpc : f.pc < m.script.size := (Array.getElem?_eq_some_iff.mp hc).1
  cases hi : b.read c.args with
  | error cause =>
    rw [step_of_read_error hc hb hi]
    exact .inl rfl
  | ok i =>
    rcases hreply : i.perform m.script f with ⟨g, events, result⟩
    cases result with
    | ok flow =>
      rw [step_of_perform_ok hc hb hi hreply] at he
      cases he
    | error cause =>
      rw [step_of_perform_error hc hb hi hreply] at he ⊢
      cases he
      exact Instruction.perform_error_cases hpc hreply

end Machine

/-- A call that fails leaves the host as it was. -/
def Environment.KeptOnFailure (ε : Type) [Environment ε] : Prop :=
  ∀ (env : ε) (values : List Value) (e : RuntimeError),
    (hostCall env values).result = .error e → (hostCall env values).env = env

theorem Environment.keptOnFailure_memory : KeptOnFailure Memory := by
  intro env values e h
  cases h

/-- A host without a way of its own to be called. -/
theorem Environment.keptOnFailure_of_default {ε : Type} [Environment ε]
    (h : ∀ (env : ε) values, hostCall env values = ⟨env, [], .error .hostCallUnsupported⟩) :
    KeptOnFailure ε := by
  intro env values e _
  rw [h]

namespace Machine
variable {ε : Type} [Environment ε] {m : Machine ε} {f : Frame ε}

/-- A step that fails in a built-in command changes nothing: not the address, not the pending calls,
not a variable, not what the host has recorded. So the next step fails just the same. -/
theorem step_keeps_of_error (hhost : Environment.KeptOnFailure ε) {c : Command} {b : Builtin}
    {e : RuntimeError} (hc : m.script.command? f.pc = some c)
    (hb : m.handler? c.type = some b.handler) (he : (m.step f).result = .error e) :
    (m.step f).frame = f ∧ (m.step (m.step f).frame).result = .error e := by
  have hframe : (m.step f).frame = f := by
    rcases step_error_cases hc hb he with hsame | ⟨values, hrefused, hhosted⟩
    · exact hsame
    · rw [hhosted, hhost f.env values e hrefused]
  rw [hframe]
  exact ⟨rfl, he⟩

/-- A call on a full stack, after a variable has been set and the host called, and a host call that
is refused. -/
theorem step_keeps_of_error_full_and_refused :
    let script : Script :=
      ⟨#[⟨Builtin.set.type, [.var ⟨0⟩, .integer 5]⟩, ⟨Builtin.hostCall.type, [.integer 1]⟩,
        ⟨Builtin.call.type, [.address 2]⟩], ∅, ∅, ∅⟩
    (∃ m : Machine Memory, (Assembly.ofScript script : Assembly Memory).build.result = .ok m ∧
      ∃ f, m.after (.start 0 .empty) 18 = .ok f ∧ f.env = ⟨⟨[(⟨0⟩, 5)]⟩, #[[.int 1]]⟩ ∧
        (m.step f).result = .error (.callStackOverflow 16 3) ∧ (m.step f).frame = f ∧
        (m.step (m.step f).frame).result = .error (.callStackOverflow 16 3)) ∧
      ∃ m : Machine Storage, (Assembly.ofScript script : Assembly Storage).build.result = .ok m ∧
        ∃ f, m.after (.start 0 .empty) 1 = .ok f ∧ f.env = ⟨[(⟨0⟩, 5)]⟩ ∧
          (m.step f).result = .error .hostCallUnsupported ∧ (m.step f).frame = f ∧
          (m.step (m.step f).frame).result = .error .hostCallUnsupported := by
  intro script
  have hstorage : Environment.KeptOnFailure Storage :=
    Environment.keptOnFailure_of_default (fun _ _ => rfl)
  obtain ⟨m, hbuild, hcall, f, hf, henv, hpc, hfull⟩ : ∃ m : Machine Memory,
      (Assembly.ofScript script : Assembly Memory).build.result = .ok m ∧
        m.handler? Builtin.call.type = some Builtin.call.handler ∧
        ∃ f, m.after (.start 0 .empty) 18 = .ok f ∧ f.env = ⟨⟨[(⟨0⟩, 5)]⟩, #[[.int 1]]⟩ ∧
          f.pc = 2 ∧ (m.step f).result = .error (.callStackOverflow 16 3) :=
    ⟨_, by cbv, by cbv, _, by cbv, by cbv, by cbv, by cbv⟩
  obtain ⟨m', hbuild', hhost, f', hf', henv', hpc', hrefused⟩ : ∃ m : Machine Storage,
      (Assembly.ofScript script : Assembly Storage).build.result = .ok m ∧
        m.handler? Builtin.hostCall.type = some Builtin.hostCall.handler ∧
        ∃ f, m.after (.start 0 .empty) 1 = .ok f ∧ f.env = ⟨[(⟨0⟩, 5)]⟩ ∧
          f.pc = 1 ∧ (m.step f).result = .error .hostCallUnsupported :=
    ⟨_, by cbv, by cbv, _, by cbv, by cbv, by cbv, by cbv⟩
  have hcommand : m.script.command? f.pc = some ⟨Builtin.call.type, [.address 2]⟩ := by
    rw [(Assembly.script_of_build hbuild).1, hpc]
    rfl
  have hcommand' : m'.script.command? f'.pc = some ⟨Builtin.hostCall.type, [.integer 1]⟩ := by
    rw [(Assembly.script_of_build hbuild').1, hpc']
    rfl
  obtain ⟨hkept, hagain⟩ :=
    step_keeps_of_error Environment.keptOnFailure_memory hcommand hcall hfull
  obtain ⟨hkept', hagain'⟩ := step_keeps_of_error hstorage hcommand' hhost hrefused
  exact ⟨⟨m, hbuild, f, hf, henv, hfull, hkept, hagain⟩, m', hbuild', f', hf', henv', hrefused,
    hkept', hagain'⟩

end Machine

end CommandScript
