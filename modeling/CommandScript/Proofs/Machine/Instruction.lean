import CommandScript.Proofs.Machine.Table
/-! # Instructions

What is left of a built-in command once its arguments have been taken. A handler reads its
instruction, for which it looks at the arguments only, and then carries it out on the frame. So what
a step does is said instruction by instruction.
-/
namespace CommandScript

namespace Action
variable {ε α β : Type} {x : Action ε α} {script : Script} {f g : Frame ε} {events : List Event}

theorem bind_of_ok {a : α} (h : x script f = ⟨g, events, .ok a⟩) (k : α → Action ε β) :
    (x >>= k) script f =
      ⟨(k a script g).frame, events ++ (k a script g).events, (k a script g).result⟩ := by
  change Action.bind x k script f = _
  simp only [Action.bind, h]

theorem bind_of_error {e : RuntimeError} (h : x script f = ⟨g, events, .error e⟩)
    (k : α → Action ε β) : (x >>= k) script f = ⟨g, events, .error e⟩ := by
  change Action.bind x k script f = _
  simp only [Action.bind, h]

end Action

inductive Instruction where
  | nop
  | hostCall (values : List Value)
  | goto (target : Address)
  | set (v : Variable) (x : Int32)
  | copy (source target : Variable)
  | setFlag (v : Variable) (flag : Flag)
  | clearFlag (v : Variable) (flag : Flag)
  | add (v : Variable) (delta : Int32)
  | call (target : Address)
  | ret
  | jumpIf (v : Variable) (x : Int32) (target : Address)
  | jumpIfFlag (v : Variable) (flag : Flag) (target : Address)
  | jumpIfNotFlag (v : Variable) (flag : Flag) (target : Address)

def Instruction.perform {ε : Type} [Environment ε] : Instruction → Action ε Flow
  | nop => return .next
  | hostCall values => do
    Action.hostCall values
    return .next
  | goto target => return .jump target
  | set v x => do
    Action.set v x
    return .next
  | copy source target => do
    Action.copy source target
    return .next
  | setFlag v flag => do
    Action.setFlag v flag
    return .next
  | clearFlag v flag => do
    Action.clearFlag v flag
    return .next
  | add v delta => do
    Action.add v delta
    return .next
  | call target => Action.call target
  | ret => Action.ret
  | jumpIf v x target => return .jumpIf ((← Action.get v) == x) target
  | jumpIfFlag v flag target => return .jumpIf (← Action.testFlag v flag) target
  | jumpIfNotFlag v flag target => return .jumpIf (!(← Action.testFlag v flag)) target

namespace Instruction

-- Equations for whole replies: parts of a reply that is not computed yet are slow to compare.
section Effects
variable {ε : Type} [Environment ε] (v : Variable) (target : Address) (script : Script) (f : Frame ε)

theorem perform_add (delta : Int32) :
    (add v delta).perform script f =
      ⟨{ f with env := Environment.set f.env v (Environment.get f.env v + delta) }, [],
        .ok .next⟩ := rfl

theorem perform_setFlag (flag : Flag) :
    (setFlag v flag).perform script f =
      ⟨{ f with
        env := Environment.set f.env v (Environment.get f.env v ||| flag.handle.toInt32) }, [],
        .ok .next⟩ := rfl

theorem perform_clearFlag (flag : Flag) :
    (clearFlag v flag).perform script f =
      ⟨{ f with
        env := Environment.set f.env v (Environment.get f.env v &&& ~~~flag.handle.toInt32) }, [],
        .ok .next⟩ := rfl

theorem perform_jumpIf (a : Int32) :
    (jumpIf v a target).perform script f =
      ⟨f, [], .ok (.jumpIf (Environment.get f.env v == a) target)⟩ := rfl

theorem perform_jumpIfFlag (flag : Flag) :
    (jumpIfFlag v flag target).perform script f =
      ⟨f, [], .ok (.jumpIf ((Environment.get f.env v &&& flag.handle.toInt32) != 0) target)⟩ := rfl

theorem perform_jumpIfNotFlag (flag : Flag) :
    (jumpIfNotFlag v flag target).perform script f =
      ⟨f, [], .ok (.jumpIf (!((Environment.get f.env v &&& flag.handle.toInt32) != 0)) target)⟩ := rfl

end Effects

end Instruction

namespace Builtin

/-- The instruction that bound arguments make of a command. -/
def ofArguments (b : Builtin) (a : Arguments) : Except BindError Instruction :=
  match b with
  | nop => return .nop
  | ret => return .ret
  | hostCall => return .hostCall a
  | goto => return .goto (← a.address 0)
  | call => return .call (← a.address 0)
  | set => return .set (← a.var 0) (← a.int 1)
  | add => return .add (← a.var 0) (← a.int 1)
  | copy => return .copy (← a.var 0) (← a.var 1)
  | setFlag => return .setFlag (← a.var 0) (← a.flag 1)
  | clearFlag => return .clearFlag (← a.var 0) (← a.flag 1)
  | jumpIf => return .jumpIf (← a.var 0) (← a.int 1) (← a.address 2)
  | jumpIfFlag => return .jumpIfFlag (← a.var 0) (← a.flag 1) (← a.address 2)
  | jumpIfNotFlag => return .jumpIfNotFlag (← a.var 0) (← a.flag 1) (← a.address 2)

/-- The arguments of a command, evaluated and bound to its signature. -/
def bound (b : Builtin) (args : List Expr) : Except RuntimeError Arguments := do
  let values ← (Expr.evalAll args).mapError .eval
  (bindArguments b.signature values).mapError .bind

def read (b : Builtin) (args : List Expr) : Except RuntimeError Instruction :=
  match b with
  | nop => return .nop
  | ret => return .ret
  | hostCall => return .hostCall (← (Expr.evalAll args).mapError .eval)
  | b => do (b.ofArguments (← b.bound args)).mapError .bind

variable {ε : Type}

theorem bindArgs_eq (b : Builtin) (args : List Expr) :
    (Action.bindArgs b.signature args : Action ε Arguments) = Action.ofExcept (b.bound args) := by
  unfold Action.bindArgs Action.evaluate bound
  cases Expr.evalAll args <;> rfl

variable [Environment ε]

/-- A command other than a host call takes its bound arguments and carries out what they make of
it. -/
theorem perform_eq {b : Builtin} (hb : b ≠ hostCall) (a : Arguments) :
    (b.perform a : Action ε Flow) =
      Action.ofExcept ((b.ofArguments a).mapError .bind) >>= Instruction.perform := by
  unfold perform ofArguments Action.fetch
  cases b with
  | nop | ret => rfl
  | hostCall => exact absurd rfl hb
  | goto | call => cases a.address 0 <;> rfl
  | set | add => cases a.var 0 <;> cases a.int 1 <;> rfl
  | copy => cases a.var 0 <;> cases a.var 1 <;> rfl
  | setFlag | clearFlag => cases a.var 0 <;> cases a.flag 1 <;> rfl
  | jumpIf => cases a.var 0 <;> cases a.int 1 <;> cases a.address 2 <;> rfl
  | jumpIfFlag | jumpIfNotFlag => cases a.var 0 <;> cases a.flag 1 <;> cases a.address 2 <;> rfl

/-- A handler reads its instruction and carries it out. -/
theorem handler_eq (b : Builtin) (args : List Expr) :
    (b.handler args : Action ε Flow) =
      Action.ofExcept (b.read args) >>= Instruction.perform := by
  have hbound : b ≠ hostCall →
      (do b.perform (← Action.bindArgs b.signature args) : Action ε Flow) =
        Action.ofExcept (do (b.ofArguments (← b.bound args)).mapError .bind) >>=
          Instruction.perform := by
    intro hb
    rw [bindArgs_eq]
    cases b.bound args with
    | error e => rfl
    | ok a => exact perform_eq hb a
  cases b with
  | nop | ret => rfl
  | hostCall =>
    unfold handler read Action.evaluate
    cases Expr.evalAll args <;> rfl
  | _ => exact hbound (by decide)

theorem handler_of_read_error {b : Builtin} {args : List Expr} {e : RuntimeError}
    (h : b.read args = .error e) (script : Script) (f : Frame ε) :
    b.handler args script f = ⟨f, [], .error e⟩ := by
  rw [handler_eq, h]
  rfl

theorem handler_of_read_ok {b : Builtin} {args : List Expr} {i : Instruction}
    (h : b.read args = .ok i) (script : Script) (f : Frame ε) :
    b.handler args script f = i.perform script f := by
  rw [handler_eq, h]
  rfl

/-- Reading fails on the arguments: on evaluating or on binding them. -/
theorem read_error {b : Builtin} {args : List Expr} {e : RuntimeError}
    (h : b.read args = .error e) : (∃ cause, e = .eval cause) ∨ ∃ cause, e = .bind cause := by
  let Fault (e : RuntimeError) : Prop := (∃ cause, e = .eval cause) ∨ ∃ cause, e = .bind cause
  have heval : Ends (fun _ => True) Fault ((Expr.evalAll args).mapError .eval) :=
    (Ends.of_any _).mapError (fun cause _ => .inl ⟨cause, rfl⟩)
  have hbind {α : Type} (x : Except BindError α) : Ends (fun _ => True) Fault (x.mapError .bind) :=
    (Ends.of_any _).mapError (fun cause _ => .inr ⟨cause, rfl⟩)
  have hread : Ends (fun _ => True) Fault
      (do (b.ofArguments (← b.bound args)).mapError .bind) :=
    (heval.bind (fun values _ => hbind _)).bind (fun a _ => hbind _)
  cases b with
  | nop | ret => cases h
  | hostCall =>
    have hvalues : Ends (fun _ => True) Fault (hostCall.read args) :=
      heval.bind (fun values _ => trivial)
    exact hvalues.of_error h
  | _ => exact hread.of_error h

/-- A call takes one argument, an address. -/
theorem read_call_eq_ok_iff {args : List Expr} {i : Instruction} :
    call.read args = .ok i ↔ ∃ a, i = .call a ∧ call.bound args = .ok [.address a] := by
  constructor
  · intro h
    obtain ⟨bound, hbound, hi⟩ := exists_of_bind_eq_ok h
    obtain ⟨values, hvalues, hargs⟩ := exists_of_bind_eq_ok hbound
    obtain ⟨v, hv, hsingle⟩ := exists_of_bind_eq_ok (mapError_eq_ok_iff.mp hargs)
    cases hsingle
    cases v with
    | address a =>
      cases hi
      exact ⟨a, rfl, hbound⟩
    | _ => cases hi
  · rintro ⟨a, rfl, hbound⟩
    change (do (call.ofArguments (← call.bound args)).mapError .bind) = _
    rw [hbound]
    rfl

end Builtin

namespace Machine
variable {ε : Type} [Environment ε] {m : Machine ε} {f : Frame ε}

/-- Every command of the script is a built-in one and is served by its own handler. -/
def ServesBuiltins (m : Machine ε) : Prop :=
  ∀ c ∈ m.script.commands, ∃ b : Builtin, b.type = c.type ∧ m.handler? c.type = some b.handler

theorem servesBuiltins_of_build {script : Script}
    (hscript : ∀ c ∈ script.commands, ∃ b : Builtin, b.type = c.type)
    (hbuild : (Assembly.ofScript script : Assembly ε).build.result = .ok m) :
    m.ServesBuiltins := by
  intro c hc
  rw [(Assembly.script_of_build hbuild).1] at hc
  obtain ⟨b, hb⟩ := hscript c hc
  refine Assembly.exists_builtin_of_build hbuild hc ?_
  rw [← hb]
  cases b <;> decide

/-- A command that has the handle of a built-in one is served as that. -/
theorem ServesBuiltins.handler?_of_mem (hm : m.ServesBuiltins) {c : Command}
    (hc : c ∈ m.script.commands) {b : Builtin} (hb : b.type = c.type) :
    m.handler? c.type = some b.handler := by
  obtain ⟨b', hb', hhandler⟩ := hm c hc
  have hsame : some b' = some b := by
    rw [← Builtin.ofType?_type b', ← Builtin.ofType?_type b, hb', hb]
  rw [hhandler, Option.some.inj hsame]

section Step
variable {c : Command} {b : Builtin} {i : Instruction} {g : Frame ε} {events : List Event}
  {e : RuntimeError} {flow : Flow}

theorem step_of_read_error (hc : m.script.command? f.pc = some c)
    (hb : m.handler? c.type = some b.handler) (he : b.read c.args = .error e) :
    m.step f = ⟨f, [.dispatched f.pc c.type], .error e⟩ := by
  simp only [step, hc, hb, act, Builtin.handler_of_read_error he]

theorem step_of_perform_error (hc : m.script.command? f.pc = some c)
    (hb : m.handler? c.type = some b.handler) (hi : b.read c.args = .ok i)
    (he : i.perform m.script f = ⟨g, events, .error e⟩) :
    m.step f = ⟨g, .dispatched f.pc c.type :: events, .error e⟩ := by
  simp only [step, hc, hb, act, Builtin.handler_of_read_ok hi, he]

theorem step_of_perform_ok (hc : m.script.command? f.pc = some c)
    (hb : m.handler? c.type = some b.handler) (hi : b.read c.args = .ok i)
    (hflow : i.perform m.script f = ⟨g, events, .ok flow⟩) :
    m.step f = ⟨follow g flow, .dispatched f.pc c.type :: events,
      .ok (!m.finished (follow g flow))⟩ := by
  simp only [step, hc, hb, act, Builtin.handler_of_read_ok hi, hflow]

end Step

/-- What the command at a frame is read as. -/
def Reads (m : Machine ε) (f : Frame ε) (r : Except RuntimeError Instruction) : Prop :=
  ∃ c b, m.script.command? f.pc = some c ∧ m.handler? c.type = some (Builtin.handler b) ∧
    b.read c.args = r

section Reads
variable {g : Frame ε} {i : Instruction} {events : List Event} {e : RuntimeError}

theorem ServesBuiltins.reads (hm : m.ServesBuiltins) {c : Command}
    (hc : m.script.command? f.pc = some c) {b : Builtin} (hb : b.type = c.type) :
    m.Reads f (b.read c.args) :=
  ⟨c, b, hc, hm.handler?_of_mem (Array.mem_of_getElem? hc) hb, rfl⟩

theorem Reads.lt_size {r : Except RuntimeError Instruction} (h : m.Reads f r) :
    f.pc < m.script.size := by
  obtain ⟨c, -, hc, -, -⟩ := h
  exact (Array.getElem?_eq_some_iff.mp hc).1

theorem Reads.step_error (h : m.Reads f (.error e)) : (m.step f).result = .error e := by
  obtain ⟨c, b, hc, hb, hread⟩ := h
  rw [step_of_read_error hc hb hread]

theorem Reads.step_perform_error (h : m.Reads f (.ok i))
    (hi : i.perform m.script f = ⟨g, events, .error e⟩) : (m.step f).result = .error e := by
  obtain ⟨c, b, hc, hb, hread⟩ := h
  rw [step_of_perform_error hc hb hread hi]

theorem Reads.step_perform_ok (h : m.Reads f (.ok i)) {flow : Flow}
    (hi : i.perform m.script f = ⟨g, events, .ok flow⟩) :
    (∃ more, (m.step f).result = .ok more) ∧ (m.step f).frame = follow g flow := by
  obtain ⟨c, b, hc, hb, hread⟩ := h
  rw [step_of_perform_ok hc hb hread hi]
  exact ⟨⟨_, rfl⟩, rfl⟩

end Reads

/-- A step that succeeds stays at the end of the script, or carries out the instruction of a built-in
command and goes where that sends it. -/
theorem ServesBuiltins.step_ok_cases (hm : m.ServesBuiltins) {more : Bool}
    (h : (m.step f).result = .ok more) :
    m.script.command? f.pc = none ∧ (m.step f).frame = f ∨
      ∃ c b i g events flow, m.script.command? f.pc = some c ∧ b.type = c.type ∧
        Builtin.read b c.args = .ok i ∧ i.perform m.script f = ⟨g, events, .ok flow⟩ ∧
        (m.step f).frame = follow g flow := by
  cases hc : m.script.command? f.pc with
  | none =>
    refine .inl ⟨rfl, ?_⟩
    simp only [step, hc]
  | some c =>
    obtain ⟨b, htype, hb⟩ := hm c (Array.mem_of_getElem? hc)
    cases hi : b.read c.args with
    | error e =>
      rw [step_of_read_error hc hb hi] at h
      cases h
    | ok i =>
      rcases hreply : i.perform m.script f with ⟨g, events, result⟩
      cases result with
      | error e =>
        rw [step_of_perform_error hc hb hi hreply] at h
        cases h
      | ok flow =>
        refine .inr ⟨c, b, i, g, events, flow, rfl, htype, hi, hreply, ?_⟩
        rw [step_of_perform_ok hc hb hi hreply]

end Machine

end CommandScript
