import CommandScript.Proofs.Machine.Arguments
import CommandScript.Proofs.Machine.Table
import CommandScript.Proofs.Scripts.Placement
/-! # Faults of compiled scripts

A compiled script that runs on the built-in commands alone never finds a command without a handler,
an argument that is missing, or a label that was left. What is left to fail is what the script asks
for: calls nested too deep, arguments of another domain, and arithmetic that has no result.
-/
namespace CommandScript

/-- The errors that a script of the given size may run into. -/
def RuntimeError.Expected (size : Nat) : RuntimeError → Prop
  | .callStackOverflow _ _ => True
  | .bind cause => cause.Expected
  | .eval cause => cause.Expected size
  | .hostCallUnsupported => True
  | .unknownLabel _ => False
  | .unboundCommand _ => False
  | .host _ => False

/-- A host whose calls succeed or are refused. -/
def Environment.OnlyRefuses (ε : Type) [Environment ε] : Prop :=
  ∀ (env : ε) (values : List Value) (e : RuntimeError),
    (Environment.hostCall env values).result = .error e → e = .hostCallUnsupported

theorem Environment.onlyRefuses_memory : OnlyRefuses Memory := nofun

theorem Environment.onlyRefuses_of_default {ε : Type} [Environment ε]
    (h : ∀ (env : ε) (values : List Value),
      Environment.hostCall env values = ⟨env, [], .error .hostCallUnsupported⟩) :
    OnlyRefuses ε := by
  intro env values e he
  rw [h] at he
  cases he
  rfl

namespace Action
variable {ε α β : Type} {good : α → Prop} {good' : β → Prop} {bad : RuntimeError → Prop}

/-- How an action may end, on any frame of any script. -/
def AlwaysEnds (good : α → Prop) (bad : RuntimeError → Prop) (x : Action ε α) : Prop :=
  ∀ script f, Ends good bad (x script f).result

theorem AlwaysEnds.bind {x : Action ε α} {k : α → Action ε β} (hx : AlwaysEnds good bad x)
    (hk : ∀ a, good a → AlwaysEnds good' bad (k a)) : AlwaysEnds good' bad (x >>= k) := by
  intro script f
  have hfirst := hx script f
  change Ends good' bad (Action.bind x k script f).result
  unfold Action.bind
  cases hresult : (x script f).result with
  | error e =>
    simp only [hresult]
    exact hfirst.of_error hresult
  | ok a =>
    rw [hresult] at hfirst
    simp only [hresult]
    exact hk a hfirst script _

theorem alwaysEnds_pure {a : α} (ha : good a) : AlwaysEnds good bad (pure a : Action ε α) :=
  fun _ _ => ha

theorem alwaysEnds_ofExcept {x : Except RuntimeError α} (hx : Ends good bad x) :
    AlwaysEnds good bad (ofExcept x : Action ε α) :=
  fun _ _ => hx

variable {size : Nat}

theorem alwaysEnds_evaluate {args : List Expr} (hargs : ∀ e ∈ args, e.Settled size) :
    AlwaysEnds (fun values => values.length = args.length) (RuntimeError.Expected size)
      (evaluate args : Action ε (List Value)) :=
  alwaysEnds_ofExcept ((Expr.ends_evalAll hargs).mapError (fun _ he => he))

theorem alwaysEnds_bindArgs {signature : List Param} {args : List Expr}
    (hposition : ∀ p ∈ signature, p.position = none) (hlength : args.length = signature.length)
    (hargs : ∀ e ∈ args, e.Settled size) :
    AlwaysEnds (fun bound => bound.length = signature.length) (RuntimeError.Expected size)
      (bindArgs signature args : Action ε Arguments) := by
  refine (alwaysEnds_evaluate hargs).bind (fun values hvalues => ?_)
  have hbound := ends_bindArguments hposition (hvalues.trans hlength)
  exact alwaysEnds_ofExcept (hbound.mapError (fun _ he => he))

/-- An action that first takes an argument which is there. -/
theorem alwaysEnds_fetch {domain : Domain} {pick : Value → Option α} {args : Arguments}
    {place : Nat} {k : α → Action ε β} (hplace : place < args.length)
    (hk : ∀ a, AlwaysEnds good' (RuntimeError.Expected size) (k a)) :
    AlwaysEnds good' (RuntimeError.Expected size) (fetch (args.read domain pick place) >>= k) := by
  have hread : Ends (fun _ => True) BindError.Expected (args.read domain pick place) :=
    Arguments.ends_read hplace
  have hfetch : AlwaysEnds (fun _ => True) (RuntimeError.Expected size)
      (fetch (args.read domain pick place) : Action ε α) :=
    alwaysEnds_ofExcept (hread.mapError (fun _ he => he))
  exact hfetch.bind (fun a _ => hk a)

theorem alwaysEnds_pushReturn (pc : Address) :
    AlwaysEnds (fun _ => True) (RuntimeError.Expected size) (pushReturn pc : Action ε Unit) := by
  intro script f
  unfold pushReturn
  cases hpush : f.stack.push pc with
  | ok stack => trivial
  | error e =>
    cases CallStack.eq_overflow_of_push hpush
    trivial

theorem alwaysEnds_call (target : Address) :
    AlwaysEnds (fun _ => True) (RuntimeError.Expected size) (call target : Action ε Flow) := by
  unfold call
  split
  · exact fun _ _ => trivial
  · have hfollowing : AlwaysEnds (fun _ => True) (RuntimeError.Expected size)
        (following : Action ε Address) := fun _ _ => trivial
    refine hfollowing.bind (fun pc _ => ?_)
    exact (alwaysEnds_pushReturn pc).bind (fun _ _ => alwaysEnds_pure trivial)

theorem alwaysEnds_ret :
    AlwaysEnds (fun _ => True) (RuntimeError.Expected size) (ret : Action ε Flow) := by
  intro script f
  unfold ret
  split <;> trivial

variable [Environment ε]

theorem alwaysEnds_hostCall (hhost : Environment.OnlyRefuses ε) (values : List Value) :
    AlwaysEnds (fun _ => True) (RuntimeError.Expected size) (hostCall values : Action ε Unit) := by
  intro script f
  change Ends _ _ (Environment.hostCall f.env values).result
  cases hresult : (Environment.hostCall f.env values).result with
  | ok _ => trivial
  | error e =>
    rw [hhost f.env values e hresult]
    trivial

end Action

namespace Builtin
open CommandScript.Action
variable {ε : Type} [Environment ε] {size : Nat}

theorem alwaysEnds_perform (b : Builtin) (args : Arguments)
    (hlength : args.length = b.signature.length) :
    AlwaysEnds (fun _ => True) (RuntimeError.Expected size) (b.perform args : Action ε Flow) := by
  -- What a command does to its variables never fails; only taking its arguments may.
  cases b with
  | nop | hostCall => exact alwaysEnds_pure trivial
  | ret => exact alwaysEnds_ret
  | goto =>
    have hone : args.length = 1 := hlength
    exact alwaysEnds_fetch (by omega) (fun target => alwaysEnds_pure trivial)
  | call =>
    have hone : args.length = 1 := hlength
    exact alwaysEnds_fetch (by omega) (fun target => alwaysEnds_call target)
  | set | add | copy | setFlag | clearFlag =>
    have htwo : args.length = 2 := hlength
    refine alwaysEnds_fetch (by omega) (fun v => ?_)
    refine alwaysEnds_fetch (by omega) (fun x => ?_)
    exact fun _ _ => trivial
  | jumpIf =>
    have hthree : args.length = 3 := hlength
    refine alwaysEnds_fetch (by omega) (fun v => ?_)
    have hget : AlwaysEnds (fun _ => True) (RuntimeError.Expected size)
        (Action.get v : Action ε Int32) := fun _ _ => trivial
    refine hget.bind (fun x _ => ?_)
    refine alwaysEnds_fetch (by omega) (fun n => ?_)
    exact alwaysEnds_fetch (by omega) (fun target => alwaysEnds_pure trivial)
  | jumpIfFlag | jumpIfNotFlag =>
    have hthree : args.length = 3 := hlength
    refine alwaysEnds_fetch (by omega) (fun v => ?_)
    refine alwaysEnds_fetch (by omega) (fun flag => ?_)
    have htest : AlwaysEnds (fun _ => True) (RuntimeError.Expected size)
        (Action.testFlag v flag : Action ε Bool) := fun _ _ => trivial
    refine htest.bind (fun hit _ => ?_)
    exact alwaysEnds_fetch (by omega) (fun target => alwaysEnds_pure trivial)

/-- A command with the arguments that its arity asks for. -/
theorem alwaysEnds_handler (hhost : Environment.OnlyRefuses ε) (b : Builtin) {args : List Expr}
    (hargs : ∀ e ∈ args, e.Settled size) (harity : ∀ n, b.arity = some n → args.length = n) :
    AlwaysEnds (fun _ => True) (RuntimeError.Expected size) (b.handler args : Action ε Flow) := by
  have hposition : ∀ p ∈ b.signature, p.position = none := by cases b <;> decide
  have hbound : b.arity = some b.signature.length → AlwaysEnds (fun _ => True)
      (RuntimeError.Expected size)
      (do b.perform (← bindArgs b.signature args) : Action ε Flow) := by
    intro hsignature
    refine (alwaysEnds_bindArgs hposition (harity _ hsignature) hargs).bind (fun bound h => ?_)
    exact b.alwaysEnds_perform bound h
  cases b with
  | nop => exact alwaysEnds_perform nop [] rfl
  | ret => exact alwaysEnds_perform ret [] rfl
  | hostCall =>
    refine (alwaysEnds_evaluate hargs).bind (fun values _ => ?_)
    exact (alwaysEnds_hostCall hhost values).bind (fun _ _ => alwaysEnds_pure trivial)
  | _ => exact hbound rfl

end Builtin

namespace Machine

section Serves
variable {ε : Type} {m : Machine ε} {bad : RuntimeError → Prop}

/-- Every command of the script has a handler, which fails in no other way than the given ones. -/
def Serves (bad : RuntimeError → Prop) (m : Machine ε) : Prop :=
  ∀ c ∈ m.script.commands, ∃ h, m.handler? c.type = some h ∧
    Action.AlwaysEnds (fun _ => True) bad (h c.args)

theorem Serves.ends_step (hm : m.Serves bad) (f : Frame ε) :
    Ends (fun _ => True) bad (m.step f).result := by
  unfold step
  cases hcommand : m.script.command? f.pc with
  | none => trivial
  | some c =>
    obtain ⟨h, hhandler, hends⟩ := hm c (Array.mem_of_getElem? hcommand)
    have hact := hends m.script f
    simp only [hhandler, act]
    cases hresult : (h c.args m.script f).result with
    | error e => exact hact.of_error hresult
    | ok flow => trivial

theorem Serves.ends_runLoop (hm : m.Serves bad) (limit : Nat) (log : List Event) (f : Frame ε) :
    Ends (fun _ => True) bad (m.runLoop limit log f).result := by
  induction limit generalizing log f with
  | zero => trivial
  | succ limit ih =>
    have hstep := hm.ends_step f
    unfold runLoop
    cases hresult : (m.step f).result with
    | error e =>
      simp only [hresult]
      exact hstep.of_error hresult
    | ok more =>
      cases more with
      | false =>
        simp only [hresult]
        trivial
      | true =>
        simp only [hresult]
        exact ih _ _

end Serves

variable {ε : Type} [Environment ε] {m : Machine ε}

/-- Every command of the script is served by a built-in one, and has the arguments it takes. -/
structure Ready (m : Machine ε) : Prop where
  served : ∀ c ∈ m.script.commands, ∃ b : Builtin,
    m.handler? c.type = some b.handler ∧ ∀ n, b.arity = some n → c.args.length = n
  settled : ∀ c ∈ m.script.commands, ∀ e ∈ c.args, e.Settled m.script.size

/-- No argument of a compiled command holds a label or an address behind the end. -/
theorem settled_of_compile {text : String} {names : Registries} {config : LookaheadConfig}
    {script : Script} (h : (compile text names config).result = .ok script) :
    ∀ c ∈ script.commands, ∀ e ∈ c.args, e.Settled script.size := by
  intro c hc e he x hx
  constructor
  · rintro name rfl
    exact label_not_mem_of_compile h c hc e he name hx
  · rintro a rfl
    exact ((sound_of_compile h).own.command c hc).address_le e he a hx

theorem ready_of_build {text : String} {names : Registries} {config : LookaheadConfig}
    {script : Script} (hcompile : (compile text names config).result = .ok script)
    (hbuild : (Assembly.ofScript script : Assembly ε).build.result = .ok m) :
    m.script = script ∧ m.Ready := by
  have hscript : m.script = script := (Assembly.script_of_build hbuild).1
  have hform : script.WellFormed := (sound_of_compile hcompile).own.toWellFormed
  refine ⟨hscript, ?_, hscript ▸ settled_of_compile hcompile⟩
  intro c hc
  rw [hscript] at hc
  have hc' := hform.command c hc
  obtain ⟨b, htype, hhandler⟩ := Assembly.exists_builtin_of_build hbuild hc hc'.type_ne_none
  refine ⟨b, hhandler, fun n hn => hc'.arity n ?_⟩
  rw [← htype, CommandType.arity, Builtin.ofType?_type]
  exact hn

theorem Ready.serves (hm : m.Ready) (hhost : Environment.OnlyRefuses ε) :
    m.Serves (RuntimeError.Expected m.script.size) := by
  intro c hc
  obtain ⟨b, hhandler, harity⟩ := hm.served c hc
  exact ⟨b.handler, hhandler, b.alwaysEnds_handler hhost (hm.settled c hc) harity⟩

theorem Ready.ends_step (hm : m.Ready) (hhost : Environment.OnlyRefuses ε) (f : Frame ε) :
    Ends (fun _ => True) (RuntimeError.Expected m.script.size) (m.step f).result :=
  (hm.serves hhost).ends_step f

theorem Ready.ends_runLoop (hm : m.Ready) (hhost : Environment.OnlyRefuses ε) (limit : Nat)
    (log : List Event) (f : Frame ε) :
    Ends (fun _ => True) (RuntimeError.Expected m.script.size) (m.runLoop limit log f).result :=
  (hm.serves hhost).ends_runLoop limit log f

/-- On a host whose calls succeed or are refused, a compiled script whose table of built-in commands
is complete fails in no other way than the expected ones: in no step on any frame, and in no run
from any address. -/
theorem error_expected_of_build {text : String} {names : Registries} {config : LookaheadConfig}
    {script : Script} (hhost : Environment.OnlyRefuses ε)
    (hcompile : (compile text names config).result = .ok script)
    (hbuild : (Assembly.ofScript script : Assembly ε).build.result = .ok m) :
    (∀ f e, (m.step f).result = .error e → e.Expected script.size) ∧
      ∀ limit pc env e, (m.start limit pc env).result = .error e → e.Expected script.size := by
  obtain ⟨rfl, hm⟩ := ready_of_build hcompile hbuild
  constructor
  · intro f e he
    exact (hm.ends_step hhost f).of_error he
  · intro limit pc env e he
    exact (hm.ends_runLoop hhost limit [] (.start pc env)).of_error he

/-- A call to a command that divides by zero, on a host that records calls and on one that refuses
them. -/
theorem error_expected_of_build_division :
    let script : Script :=
      ⟨#[⟨⟨9⟩, [.address 1]⟩, ⟨⟨3⟩, [.binary .div (.integer 1) (.integer 0)]⟩],
        (∅ : NameTable Address).insert "a" 1, ∅, ∅⟩
    (compile "call a\na: goto 1 / 0" .builtin ⟨1, 2⟩).result = .ok script ∧
      (∃ m : Machine Memory, (Assembly.ofScript script : Assembly Memory).build.result = .ok m ∧
        (m.start 9 0 .empty).result = .error (.eval .divisionByZero) ∧
        ∀ limit pc env e, (m.start limit pc env).result = .error e → e.Expected 2) ∧
      ∃ m : Machine Storage, (Assembly.ofScript script : Assembly Storage).build.result = .ok m ∧
        (m.start 9 0 .empty).result = .error (.eval .divisionByZero) ∧
        ∀ limit pc env e, (m.start limit pc env).result = .error e → e.Expected 2 := by
  intro script
  have hcompile : (compile "call a\na: goto 1 / 0" .builtin ⟨1, 2⟩).result = .ok script := by cbv
  have hstorage : Environment.OnlyRefuses Storage :=
    Environment.onlyRefuses_of_default (fun _ _ => rfl)
  obtain ⟨m, hbuild, hstart⟩ : ∃ m : Machine Memory,
      (Assembly.ofScript script : Assembly Memory).build.result = .ok m ∧
        (m.start 9 0 .empty).result = .error (.eval .divisionByZero) := ⟨_, by cbv, by cbv⟩
  obtain ⟨m', hbuild', hstart'⟩ : ∃ m : Machine Storage,
      (Assembly.ofScript script : Assembly Storage).build.result = .ok m ∧
        (m.start 9 0 .empty).result = .error (.eval .divisionByZero) := ⟨_, by cbv, by cbv⟩
  have hmemory := error_expected_of_build Environment.onlyRefuses_memory hcompile hbuild
  have hrefusing := error_expected_of_build hstorage hcompile hbuild'
  exact ⟨hcompile, ⟨m, hbuild, hstart, hmemory.2⟩, m', hbuild', hstart', hrefusing.2⟩

end Machine

end CommandScript
