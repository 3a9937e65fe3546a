import CommandScript.Proofs.Machine.Instruction
import Mathlib
/-! # Calls and returns

A call leaves its return address behind, and the return that takes it away again is the first moment
at which no more calls are pending than before. In between a run may call, return and jump as it
likes: it never reaches what was pending before the call.
-/
namespace CommandScript

/-- At a command, a call to anywhere but zero leaves the address behind the command. -/
theorem Action.call_eq {ε : Type} {script : Script} {f : Frame ε} {a : Address} (ha : a ≠ 0)
    (hpc : f.pc < script.size) :
    call a script f = match f.stack.push (f.pc + 1) with
      | .ok stack => ⟨{ f with stack }, [], .ok (.jump a)⟩
      | .error e => ⟨f, [], .error e⟩ := by
  have hfollowing : (following : Action ε Address) script f = ⟨f, [], .ok (f.pc + 1)⟩ := by
    rw [following, if_pos hpc]
  unfold call
  rw [if_neg ha, bind_of_ok hfollowing]
  cases hpush : f.stack.push (f.pc + 1) with
  | ok stack =>
    have hpushed : (pushReturn (f.pc + 1) : Action ε Unit) script f =
        ⟨{ f with stack }, [], .ok ()⟩ := by
      rw [pushReturn, hpush]
    rw [bind_of_ok hpushed]
    rfl
  | error e =>
    have hfull : (pushReturn (f.pc + 1) : Action ε Unit) script f = ⟨f, [], .error e⟩ := by
      rw [pushReturn, hpush]
    rw [bind_of_error hfull]
    rfl

/-- What an instruction does to the pending calls: nothing, or one call more, or a return to the
latest one. -/
theorem Instruction.toList_cases {ε : Type} [Environment ε] {i : Instruction} {script : Script}
    {f g : Frame ε} {events : List Event} {flow : Flow}
    (hpc : f.pc < script.size) (h : i.perform script f = ⟨g, events, .ok flow⟩) :
    g.stack.toList = f.stack.toList ∨ (∃ pc, g.stack.toList = pc :: f.stack.toList) ∨
      g.stack.toList = f.stack.toList.tail ∧
        flow = .jump (f.stack.toList.head?.getD script.size) := by
  have hframe : (i.perform script f).frame = g := by rw [h]
  cases i with
  | call a =>
    by_cases ha : a = 0
    · subst ha
      cases h
      exact .inl rfl
    · rw [Instruction.perform, Action.call_eq ha hpc] at h
      cases hpush : f.stack.push (f.pc + 1) with
      | ok stack =>
        rw [hpush] at h
        cases h
        exact .inr (.inl ⟨_, CallStack.toList_push hpush⟩)
      | error e =>
        rw [hpush] at h
        cases h
  | ret =>
    obtain ⟨hhead, htail⟩ := f.stack.toList_pop
    refine .inr (.inr ?_)
    rw [← hhead, ← htail]
    rw [Instruction.perform, Action.ret] at h
    rcases hpop : f.stack.pop with ⟨_ | pc, stack⟩
    · rw [hpop] at h
      cases h
      exact ⟨rfl, rfl⟩
    · rw [hpop] at h
      cases h
      exact ⟨rfl, rfl⟩
  | hostCall values =>
    have hhost : (Action.hostCall values : Action ε Unit) script f =
        ⟨{ f with env := (Environment.hostCall f.env values).env },
          (Environment.hostCall f.env values).events,
          (Environment.hostCall f.env values).result⟩ := rfl
    left
    cases hresult : (Environment.hostCall f.env values).result with
    | ok =>
      rw [hresult] at hhost
      rw [← hframe, Instruction.perform, Action.bind_of_ok hhost]
      rfl
    | error e =>
      rw [hresult] at hhost
      rw [← hframe, Instruction.perform, Action.bind_of_error hhost]
  | _ =>
    left
    rw [← hframe]
    rfl

namespace Machine
variable {ε : Type} {m : Machine ε} {f : Frame ε}

/-- The frame after some steps, if none of them fails. -/
def after (m : Machine ε) (f : Frame ε) : Nat → Except RuntimeError (Frame ε)
  | 0 => .ok f
  | k + 1 => do
    let g ← m.after f k
    let _ ← (m.step g).result
    return (m.step g).frame

theorem after_succ_eq_ok {k : Nat} {g : Frame ε} (h : m.after f (k + 1) = .ok g) :
    ∃ g' more, m.after f k = .ok g' ∧ (m.step g').result = .ok more ∧ (m.step g').frame = g := by
  obtain ⟨g', hg', h⟩ := exists_of_bind_eq_ok h
  obtain ⟨more, hmore, h⟩ := exists_of_bind_eq_ok h
  cases h
  exact ⟨g', more, hg', hmore, rfl⟩

variable [Environment ε]

namespace ServesBuiltins

theorem toList_step (hm : m.ServesBuiltins) {more : Bool} (h : (m.step f).result = .ok more) :
    (m.step f).frame.stack.toList = f.stack.toList ∨
      (∃ pc, (m.step f).frame.stack.toList = pc :: f.stack.toList) ∨
      (m.step f).frame.stack.toList = f.stack.toList.tail ∧
        (m.step f).frame.pc = f.stack.toList.head?.getD m.script.size := by
  rcases hm.step_ok_cases h with ⟨-, hframe⟩ | ⟨c, b, i, g, events, flow, hc, -, -, hi, hframe⟩
  · rw [hframe]
    exact .inl rfl
  · have hpc : f.pc < m.script.size := (Array.getElem?_eq_some_iff.mp hc).1
    have hstack : (follow g flow).stack = g.stack := by cases flow <;> rfl
    rw [hframe, hstack]
    refine (i.toList_cases hpc hi).imp_right (Or.imp_right ?_)
    rintro ⟨htail, rfl⟩
    exact ⟨htail, rfl⟩

/-- A call to anywhere but zero, with room for one more. -/
theorem step_call (hm : m.ServesBuiltins) {c : Command} (hc : m.script.command? f.pc = some c)
    (htype : c.type = Builtin.call.type) {a : Address}
    (hbound : Builtin.call.bound c.args = .ok [.address a]) (ha : a ≠ 0)
    (hroom : f.stack.depth < CallStack.limit) :
    ∃ g, m.after f 1 = .ok g ∧ g.pc = a ∧ g.stack.toList = (f.pc + 1) :: f.stack.toList := by
  have hpc : f.pc < m.script.size := (Array.getElem?_eq_some_iff.mp hc).1
  have hread := Builtin.read_call_eq_ok_iff.mpr ⟨a, rfl, hbound⟩
  obtain ⟨stack, hpush⟩ := CallStack.exists_push hroom (f.pc + 1)
  have hcall : (Instruction.call a).perform m.script f = ⟨{ f with stack }, [], .ok (.jump a)⟩ := by
    rw [Instruction.perform, Action.call_eq ha hpc, hpush]
  have hhandler := hm.handler?_of_mem (Array.mem_of_getElem? hc) htype.symm
  have hstep := step_of_perform_ok hc hhandler hread hcall
  refine ⟨⟨a, stack, f.env⟩, ?_, rfl, CallStack.toList_push hpush⟩
  simp only [after, ok_bind, hstep]
  rfl

theorem step_call_of_full (hm : m.ServesBuiltins) {c : Command}
    (hc : m.script.command? f.pc = some c) (htype : c.type = Builtin.call.type) {a : Address}
    (hbound : Builtin.call.bound c.args = .ok [.address a]) (ha : a ≠ 0)
    (hfull : f.stack.depth = CallStack.limit) :
    (m.step f).result = .error (.callStackOverflow CallStack.limit (f.pc + 1)) := by
  have hpc : f.pc < m.script.size := (Array.getElem?_eq_some_iff.mp hc).1
  have hread := Builtin.read_call_eq_ok_iff.mpr ⟨a, rfl, hbound⟩
  have hcall : (Instruction.call a).perform m.script f =
      ⟨f, [], .error (.callStackOverflow CallStack.limit (f.pc + 1))⟩ := by
    rw [Instruction.perform, Action.call_eq ha hpc, CallStack.push_eq_error hfull]
  have hhandler := hm.handler?_of_mem (Array.mem_of_getElem? hc) htype.symm
  rw [step_of_perform_error hc hhandler hread hcall]

/-- A call step overflows when it would leave one return address too many. -/
theorem step_call_eq_overflow_iff (hm : m.ServesBuiltins) {c : Command}
    (hc : m.script.command? f.pc = some c) (htype : c.type = Builtin.call.type) (depth : Nat)
    (pc : Address) :
    (m.step f).result = .error (.callStackOverflow depth pc) ↔
      depth = CallStack.limit ∧ pc = f.pc + 1 ∧ f.stack.depth = CallStack.limit ∧
        ∃ a ≠ 0, Builtin.call.bound c.args = .ok [.address a] := by
  have hhandler := hm.handler?_of_mem (Array.mem_of_getElem? hc) htype.symm
  constructor
  · intro h
    cases hread : Builtin.call.read c.args with
    | error e =>
      rw [step_of_read_error hc hhandler hread] at h
      cases h
      rcases Builtin.read_error hread with ⟨cause, hcause⟩ | ⟨cause, hcause⟩ <;> cases hcause
    | ok i =>
      obtain ⟨a, rfl, hbound⟩ := Builtin.read_call_eq_ok_iff.mp hread
      by_cases ha : a = 0
      · subst ha
        have hend : (Instruction.call 0).perform m.script f =
            ⟨f, [], .ok (.jump m.script.size)⟩ := rfl
        rw [step_of_perform_ok hc hhandler hread hend] at h
        cases h
      · rcases Nat.lt_or_ge f.stack.depth CallStack.limit with hroom | hfull
        · obtain ⟨g, hafter, -⟩ := hm.step_call hc htype hbound ha hroom
          obtain ⟨g', more, hsame, hok, -⟩ := after_succ_eq_ok hafter
          cases hsame
          rw [h] at hok
          cases hok
        · have hdepth : f.stack.depth = CallStack.limit := Nat.le_antisymm f.stack.depth_le hfull
          rw [hm.step_call_of_full hc htype hbound ha hdepth] at h
          cases h
          exact ⟨rfl, rfl, hdepth, a, ha, hbound⟩
  · rintro ⟨rfl, rfl, hdepth, a, ha, hbound⟩
    exact hm.step_call_of_full hc htype hbound ha hdepth

/-- While a call is pending, steps leave it so, up to the step that returns from it. -/
theorem pending_step (hm : m.ServesBuiltins) {more : Bool} (h : (m.step f).result = .ok more)
    {inner saved : List Address} {pc : Address} (hpending : f.stack.toList = inner ++ pc :: saved) :
    (∃ inner, (m.step f).frame.stack.toList = inner ++ pc :: saved) ∨
      (m.step f).frame.pc = pc ∧ (m.step f).frame.stack.toList = saved := by
  rcases hm.toList_step h with hsame | ⟨top, hcall⟩ | ⟨htail, hpc⟩
  · exact .inl ⟨inner, hsame.trans hpending⟩
  · refine .inl ⟨top :: inner, ?_⟩
    rw [hcall, hpending, List.cons_append]
  · rw [hpending] at htail hpc
    cases inner with
    | nil => exact .inr ⟨hpc, htail⟩
    | cons _ inner => exact .inl ⟨inner, htail⟩

/-- From a call on, as long as the depth has not come back to what it was, the call is pending; and
when the depth comes back, the frame is behind the call. -/
theorem pending_after (hm : m.ServesBuiltins) {g : Frame ε}
    (hcall : m.after f 1 = .ok g) (hpushed : g.stack.toList = (f.pc + 1) :: f.stack.toList)
    {k : Nat} {g' : Frame ε} (hk : m.after f (k + 1) = .ok g')
    (hfirst : ∀ j h, 0 < j → j < k + 1 → m.after f j = .ok h → h.stack.depth ≠ f.stack.depth) :
    (∃ inner, g'.stack.toList = inner ++ (f.pc + 1) :: f.stack.toList) ∨
      g'.pc = f.pc + 1 ∧ g'.stack.toList = f.stack.toList := by
  induction k generalizing g' with
  | zero =>
    rw [hcall] at hk
    cases hk
    exact .inl ⟨[], hpushed⟩
  | succ k ih =>
    obtain ⟨h, more, hh, hok, rfl⟩ := after_succ_eq_ok hk
    rcases ih hh (fun j h' hpos hlt => hfirst j h' hpos (Nat.lt_succ_of_lt hlt)) with
      ⟨inner, hinner⟩ | ⟨-, hback⟩
    · exact hm.pending_step hok hinner
    · -- Had the call been returned from by now, the depth would have been back before.
      have hdepth := congrArg List.length hback
      rw [CallStack.length_toList, CallStack.length_toList] at hdepth
      exact absurd hdepth (hfirst _ h (Nat.succ_pos k) (Nat.lt_succ_self _) hh)

end ServesBuiltins

/-- Calls and returns are well bracketed. A call with room for one more goes to its address, and when
the depth is back for the first time, the frame is behind the call with the same calls pending as
before. No run ever has more calls pending than the limit, and a call step overflows exactly if it
has an address to go to and the limit is reached. -/
theorem ServesBuiltins.calls_bracketed (hm : m.ServesBuiltins) :
    (∀ (f : Frame ε) (c : Command) (a : Address), m.script.command? f.pc = some c →
      c.type = Builtin.call.type → Builtin.call.bound c.args = .ok [.address a] → a ≠ 0 →
      f.stack.depth < CallStack.limit →
      (∃ g, m.after f 1 = .ok g ∧ g.pc = a ∧ g.stack.toList = (f.pc + 1) :: f.stack.toList) ∧
        ∀ k g, 0 < k → m.after f k = .ok g → g.stack.depth = f.stack.depth →
          (∀ j h, 0 < j → j < k → m.after f j = .ok h → h.stack.depth ≠ f.stack.depth) →
          g.pc = f.pc + 1 ∧ g.stack.toList = f.stack.toList) ∧
      (∀ pc env k g, m.after (.start pc env) k = .ok g →
        g.stack.depth ≤ CallStack.limit ∧ (m.step g).frame.stack.depth ≤ CallStack.limit) ∧
      ∀ (f : Frame ε) (c : Command), m.script.command? f.pc = some c →
        c.type = Builtin.call.type → ∀ depth pc,
          (m.step f).result = .error (.callStackOverflow depth pc) ↔
            depth = CallStack.limit ∧ pc = f.pc + 1 ∧ f.stack.depth = CallStack.limit ∧
              ∃ a ≠ 0, Builtin.call.bound c.args = .ok [.address a] := by
  refine ⟨?_, fun _ _ _ g _ => ⟨g.stack.depth_le, (m.step g).frame.stack.depth_le⟩,
    fun f c hc htype => hm.step_call_eq_overflow_iff hc htype⟩
  intro f c a hc htype hbound ha hroom
  obtain ⟨g, hcall, hpc, hpushed⟩ := hm.step_call hc htype hbound ha hroom
  refine ⟨⟨g, hcall, hpc, hpushed⟩, fun k g' hpos hk hdepth hfirst => ?_⟩
  obtain ⟨k, rfl⟩ := Nat.exists_eq_add_one_of_ne_zero (Nat.ne_of_gt hpos)
  rcases hm.pending_after hcall hpushed hk hfirst with ⟨inner, hinner⟩ | hreturned
  · have hlength := congrArg List.length hinner
    simp only [CallStack.length_toList, List.length_append, List.length_cons] at hlength
    omega
  · exact hreturned

/-- A call from the first command that calls on in its turn, and a command that calls itself. -/
theorem ServesBuiltins.calls_bracketed_nested :
    let script : Script :=
      ⟨#[⟨Builtin.call.type, [.address 2]⟩, ⟨Builtin.nop.type, []⟩,
        ⟨Builtin.call.type, [.address 4]⟩, ⟨Builtin.ret.type, []⟩, ⟨Builtin.ret.type, []⟩,
        ⟨Builtin.call.type, [.integer 5]⟩], ∅, ∅, ∅⟩
    ∃ m : Machine Memory, (Assembly.ofScript script : Assembly Memory).build.result = .ok m ∧
      m.ServesBuiltins ∧
      (∃ g, m.after (.start 0 .empty) 4 = .ok g ∧ g.pc = 1 ∧ g.stack.toList = []) ∧
      ∃ g, m.after (.start 5 .empty) 16 = .ok g ∧
        (m.step g).result = .error (.callStackOverflow 16 6) := by
  intro script
  have hscript : ∀ c ∈ script.commands, ∃ b : Builtin, b.type = c.type := by
    simp [script]
  obtain ⟨m, hbuild, hone, htwo, hthree, ⟨g, hback, hlevel⟩, ⟨g', hdeep, hplace, hfull⟩⟩ :
      ∃ m : Machine Memory, (Assembly.ofScript script : Assembly Memory).build.result = .ok m ∧
        (m.after (.start 0 .empty) 1).map (fun g => g.stack.depth) = .ok 1 ∧
        (m.after (.start 0 .empty) 2).map (fun g => g.stack.depth) = .ok 2 ∧
        (m.after (.start 0 .empty) 3).map (fun g => g.stack.depth) = .ok 1 ∧
        (∃ g, m.after (.start 0 .empty) 4 = .ok g ∧ g.stack.depth = 0) ∧
        ∃ g, m.after (.start 5 .empty) 16 = .ok g ∧ g.pc = 5 ∧ g.stack.depth = 16 :=
    ⟨_, by cbv, by cbv, by cbv, by cbv, ⟨_, by cbv, by cbv⟩, _, by cbv, by cbv, by cbv⟩
  have hsame : m.script = script := (Assembly.script_of_build hbuild).1
  have hm : m.ServesBuiltins := servesBuiltins_of_build hscript hbuild
  obtain ⟨hbracket, -, hoverflow⟩ := hm.calls_bracketed
  have hcall : m.script.command? 0 = some ⟨Builtin.call.type, [.address 2]⟩ := by
    rw [hsame]
    rfl
  have hself : m.script.command? g'.pc = some ⟨Builtin.call.type, [.integer 5]⟩ := by
    rw [hsame, hplace]
    rfl
  have hfirst : ∀ j h, 0 < j → j < 4 → m.after (.start 0 .empty) j = .ok h → h.stack.depth ≠ 0 := by
    intro j h hpos hlt hj hzero
    have hdepth {d : Nat}
        (hd : (m.after (.start 0 .empty) j).map (fun g => g.stack.depth) = .ok d) : d = 0 := by
      rw [hj] at hd
      exact (Except.ok.inj hd).symm.trans hzero
    interval_cases j
    · exact absurd (hdepth hone) (by decide)
    · exact absurd (hdepth htwo) (by decide)
    · exact absurd (hdepth hthree) (by decide)
  have hreturn := (hbracket (.start 0 .empty) _ 2 hcall rfl (by cbv) (by decide) (by decide)).2
    4 g (by decide) hback hlevel hfirst
  refine ⟨m, hbuild, hm, ⟨g, hback, hreturn⟩, g', hdeep, ?_⟩
  refine (hoverflow g' _ hself rfl 16 6).mpr ⟨rfl, ?_, hfull, 5, by decide, by cbv⟩
  rw [hplace]

end Machine

end CommandScript
