import CommandScript.Compile
import CommandScript.Proofs.Machine.Steps
import CommandScript.Proofs.Scripts.SpliceChain
import Mathlib
/-! # A macro at two sites

The copies of a macro's body differ in the addresses that its commands go to, and each goes to the
same place of its own copy. So two frames at the same place of two copies, with the same host and
with calls pending from the same places, take the same step: they fail alike, leave alike, or come
to the same place again. A step leaves the body only where it returns to a call from outside of it.
-/
namespace CommandScript

namespace Expr

/-- A tree in which neither a label nor an address occurs. -/
def Fixed (e : Expr) : Prop :=
  ∀ x ∈ e.leaves, (∀ name, x ≠ .label name) ∧ ∀ a, x ≠ .address a

theorem Fixed.rebase {e : Expr} (h : e.Fixed) (labels : NameTable Address) (base : Address) :
    e.rebase labels base = e := by
  have hleaf : ∀ x ∈ e.leaves, Expr.rebase labels base x = x := by
    intro x hx
    rcases (isLeaf_of_mem_leaves hx).label_or_address_or_plain with
      ⟨name, rfl⟩ | ⟨a, rfl⟩ | hplain
    · exact absurd rfl ((h _ hx).1 name)
    · exact absurd rfl ((h _ hx).2 a)
    · exact hplain.rebase_eq labels base
  rw [rebase_eq_mapLeaves, mapLeaves_congr hleaf, mapLeaves_id]

theorem map_rebase_of_fixed {es : List Expr} (h : ∀ e ∈ es, e.Fixed) (labels : NameTable Address)
    (base : Address) : es.map (rebase labels base) = es :=
  (List.map_congr_left fun e he => (h e he).rebase labels base).trans (List.map_id es)

theorem evalAll_append_address (es : List Expr) (a : Address) :
    evalAll (es ++ [Expr.address a]) = (evalAll es).map (· ++ [Value.address a]) := by
  rw [evalAll, List.mapM_append]
  cases h : es.mapM eval with
  | error e =>
    rw [evalAll, h]
    rfl
  | ok values =>
    rw [evalAll, h]
    rfl

theorem length_of_evalAll {es : List Expr} {values : List Value} (h : evalAll es = .ok values) :
    values.length = es.length := by
  induction es generalizing values with
  | nil =>
    cases h
    rfl
  | cons e es ih =>
    rw [evalAll, List.mapM_cons] at h
    obtain ⟨first, -, h⟩ := exists_of_bind_eq_ok h
    obtain ⟨rest, hrest, h⟩ := exists_of_bind_eq_ok h
    cases h
    rw [List.length_cons, List.length_cons, ih hrest]

end Expr

namespace Script

/-- The place that a bare label of the script or a bare address stands for. -/
inductive Locates (s : Script) : Expr → Address → Prop
  | label {name : String} {a : Address} (h : s.label? name = some a) : Locates s (.label name) a
  | address (a : Address) : Locates s (.address a) a

theorem Locates.rebase {s : Script} {e : Expr} {a : Address} (h : s.Locates e a) (base : Address) :
    e.rebase s.labels base = .address (base + a) := by
  cases h with
  | label h =>
    have hlabel : s.labels.get? _ = some a := h
    rw [Expr.rebase, hlabel]
  | address => rfl

/-- A body of built-in commands that meet their arity. Each address argument is a bare label of the
body, or a bare address up to its end, and no label or address occurs anywhere else. -/
structure Relocatable (body : Script) : Prop where
  builtin : ∀ c ∈ body.commands, ∃ b : Builtin, b.type = c.type
  arity : ∀ c ∈ body.commands, ∀ n, c.type.arity = some n → c.args.length = n
  located : ∀ c ∈ body.commands, ∀ (b : Builtin) (k : Nat) (e : Expr), b.type = c.type →
    c.args[k]? = some e → b.addressPlace? = some k → ∃ a ≤ body.size, body.Locates e a
  fixed : ∀ c ∈ body.commands, ∀ (b : Builtin) (k : Nat) (e : Expr), b.type = c.type →
    c.args[k]? = some e → b.addressPlace? ≠ some k → e.Fixed

/-- The command at a place returns from a call. -/
def ReturnsAt (body : Script) (p : Address) : Prop :=
  ∃ c, body.command? p = some c ∧ c.type = Builtin.ret.type

end Script

namespace Instruction

theorem mapTarget_of_target? {i : Instruction} (h : i.target? = none)
    (move : Address → Address) : i.mapTarget move = i := by
  cases i <;> first | rfl | cases h

end Instruction

namespace Binding

theorem bindFrom_append_address {values : List Value} {params : List Param} {place : Nat}
    (hplace : place + params.length = values.length) (hown : ∀ p ∈ params, p.position = none)
    (a : Address) :
    bindFrom (values ++ [Value.address a]) place (params ++ [Param.required .address]) =
      (bindFrom values place params).map (· ++ [Value.address a]) := by
  induction params generalizing place with
  | nil =>
    have hlast : (values ++ [Value.address a])[place]? = some (.address a) := by
      rw [show place = values.length from hplace, List.getElem?_concat_length]
    simp [bindFrom, bindParam, Param.required, hlast, coerce, bind, Except.bind, pure, Except.pure,
      Except.map]
  | cons p params ih =>
    have hlt : place < values.length := by
      rw [← hplace, List.length_cons]
      omega
    have hnext : place + 1 + params.length = values.length := by
      rw [← hplace, List.length_cons]
      omega
    have hparam : bindParam (values ++ [Value.address a]) place p = bindParam values place p := by
      simp only [bindParam, hown p List.mem_cons_self, Option.getD_none,
        List.getElem?_append_left hlt]
    rw [List.cons_append, bindFrom, bindFrom, hparam,
      ih hnext (fun q hq => hown q (List.mem_cons_of_mem p hq))]
    cases bindParam values place p with
    | error e => rfl
    | ok x => cases bindFrom values (place + 1) params <;> rfl

theorem length_of_bindFrom {values : List Value} {params : List Param} {place : Nat}
    {args : Arguments} (h : bindFrom values place params = .ok args) :
    args.length = params.length := by
  induction params generalizing place args with
  | nil =>
    cases h
    rfl
  | cons p params ih =>
    obtain ⟨first, -, h⟩ := exists_of_bind_eq_ok h
    obtain ⟨rest, hrest, h⟩ := exists_of_bind_eq_ok h
    cases h
    rw [List.length_cons, List.length_cons, ih hrest]

end Binding

namespace Builtin

/-- The address argument of a command is its last one. -/
theorem signature_of_addressPlace? {b : Builtin} {k : Nat} (h : b.addressPlace? = some k) :
    b.arity = some (k + 1) ∧ ∃ params, b.signature = params ++ [Param.required .address] ∧
      params.length = k ∧ ∀ p ∈ params, p.position = none := by
  cases b with
  | goto | call =>
    cases h
    exact ⟨rfl, [], rfl, rfl, nofun⟩
  | jumpIf =>
    cases h
    exact ⟨rfl, [.required .var, .required .int], rfl, rfl, by decide⟩
  | jumpIfFlag | jumpIfNotFlag =>
    cases h
    exact ⟨rfl, [.required .var, .required .flag], rfl, rfl, by decide⟩
  | _ => cases h

theorem ofArguments_append_address {b : Builtin} {args : Arguments}
    (hplace : b.addressPlace? = some args.length) (move : Address → Address) (a : Address) :
    b.ofArguments (args ++ [Value.address (move a)]) =
      (b.ofArguments (args ++ [Value.address a])).map (Instruction.mapTarget move) := by
  match b, args, hplace with
  | goto, [], _ | call, [], _ => rfl
  | jumpIf, [v, x], _ =>
    have h (t : Address) : jumpIf.ofArguments ([v, x] ++ [Value.address t]) =
        (do return .jumpIf (← Arguments.var [v, x] 0) (← Arguments.int [v, x] 1) t) := rfl
    rw [h, h]
    cases Arguments.var [v, x] 0 <;> cases Arguments.int [v, x] 1 <;> rfl
  | jumpIfFlag, [v, x], _ =>
    have h (t : Address) : jumpIfFlag.ofArguments ([v, x] ++ [Value.address t]) =
        (do return .jumpIfFlag (← Arguments.var [v, x] 0) (← Arguments.flag [v, x] 1) t) := rfl
    rw [h, h]
    cases Arguments.var [v, x] 0 <;> cases Arguments.flag [v, x] 1 <;> rfl
  | jumpIfNotFlag, [v, x], _ =>
    have h (t : Address) : jumpIfNotFlag.ofArguments ([v, x] ++ [Value.address t]) =
        (do return .jumpIfNotFlag (← Arguments.var [v, x] 0) (← Arguments.flag [v, x] 1) t) := rfl
    rw [h, h]
    cases Arguments.var [v, x] 0 <;> cases Arguments.flag [v, x] 1 <;> rfl

theorem read_of_addressPlace? {b : Builtin} {k : Nat} (h : b.addressPlace? = some k)
    (args : List Expr) :
    b.read args = b.bound args >>= fun bound => (b.ofArguments bound).mapError .bind := by
  cases b <;> first | rfl | cases h

/-- The arguments before the last are bound without a look at the last, and an address can always be
bound to it. -/
theorem bound_append_address {b : Builtin} {args : List Expr}
    (hplace : b.addressPlace? = some args.length) :
    ∃ first : Except RuntimeError Arguments,
      (∀ bound, first = .ok bound → bound.length = args.length) ∧
        ∀ a, b.bound (args ++ [Expr.address a]) = first.map (· ++ [Value.address a]) := by
  obtain ⟨-, params, hsignature, hlength, hown⟩ := signature_of_addressPlace? hplace
  cases hvalues : Expr.evalAll args with
  | error e =>
    refine ⟨.error (.eval e), nofun, fun a => ?_⟩
    rw [bound, Expr.evalAll_append_address, hvalues]
    rfl
  | ok values =>
    have hcount : 0 + params.length = values.length := by
      rw [Nat.zero_add, hlength, Expr.length_of_evalAll hvalues]
    refine ⟨(Binding.bindFrom values 0 params).mapError .bind, fun bound hbound => ?_, fun a => ?_⟩
    · rw [Binding.length_of_bindFrom (mapError_eq_ok_iff.mp hbound), hlength]
    · rw [bound, Expr.evalAll_append_address, hvalues]
      simp only [Except.map, Except.mapError, ok_bind, bindArguments, hsignature,
        Binding.bindFrom_append_address hcount hown]
      cases Binding.bindFrom values 0 params <;> rfl

/-- A command with another address for its last argument is the same instruction with another
target, or fails the same way. -/
theorem read_append_address {b : Builtin} {args : List Expr}
    (hplace : b.addressPlace? = some args.length) (move : Address → Address) (a : Address) :
    b.read (args ++ [Expr.address (move a)]) =
      (b.read (args ++ [Expr.address a])).map (Instruction.mapTarget move) := by
  obtain ⟨first, hlength, hbound⟩ := bound_append_address hplace
  rw [read_of_addressPlace? hplace, read_of_addressPlace? hplace, hbound, hbound]
  cases first with
  | error e => rfl
  | ok bound =>
    have hlast : b.addressPlace? = some bound.length := by
      rw [hplace, hlength bound rfl]
    simp only [Except.map, ok_bind, ofArguments_append_address hlast]
    cases b.ofArguments (bound ++ [Value.address a]) <;> rfl

end Builtin

theorem Builtin.target?_eq_none_of_read {b : Builtin} {args : List Expr} {i : Instruction}
    (hplace : b.addressPlace? = none) (h : b.read args = .ok i) : i.target? = none := by
  obtain ⟨rfl, -⟩ := read_spec h
  cases i <;> first | rfl | cases hplace

namespace Script.Relocatable
variable {body : Script} {c : Command} {b : Builtin}

theorem fixed_of_addressPlace?_eq_none (hbody : body.Relocatable) (hc : c ∈ body.commands)
    (hb : b.type = c.type) (hplace : b.addressPlace? = none) : ∀ e ∈ c.args, e.Fixed := by
  intro e he
  obtain ⟨k, hk⟩ := List.getElem?_of_mem he
  refine hbody.fixed c hc b k e hb hk ?_
  rw [hplace]
  exact nofun

theorem exists_args_of_addressPlace? (hbody : body.Relocatable) (hc : c ∈ body.commands)
    (hb : b.type = c.type) {k : Nat} (hplace : b.addressPlace? = some k) :
    ∃ (args : List Expr) (e : Expr) (a : Address), c.args = args ++ [e] ∧ args.length = k ∧
      (∀ x ∈ args, x.Fixed) ∧ a ≤ body.size ∧ body.Locates e a := by
  have harity : c.type.arity = some (k + 1) := by
    rw [← hb, CommandType.arity, Builtin.ofType?_type]
    exact (Builtin.signature_of_addressPlace? hplace).1
  have hlength : c.args.length = k + 1 := hbody.arity c hc _ harity
  obtain ⟨args, e, hargs⟩ : ∃ args e, c.args = args ++ [e] := by
    refine ⟨c.args.dropLast, c.args.getLast ?_, (List.dropLast_append_getLast _).symm⟩
    exact List.ne_nil_of_length_eq_add_one hlength
  rw [hargs, List.length_append, List.length_singleton] at hlength
  obtain rfl : args.length = k := Nat.succ.inj hlength
  have he : c.args[args.length]? = some e := by rw [hargs, List.getElem?_concat_length]
  obtain ⟨a, hle, ha⟩ := hbody.located c hc b _ e hb he hplace
  refine ⟨args, e, a, hargs, rfl, fun x hx => ?_, hle, ha⟩
  obtain ⟨j, hj⟩ := List.getElem?_of_mem hx
  have hlt : j < args.length := (List.getElem?_eq_some_iff.mp hj).1
  refine hbody.fixed c hc b j x hb ?_ ?_
  · rw [hargs, List.getElem?_append_left hlt, hj]
  · rw [hplace]
    intro h
    exact absurd (Option.some.inj h) (Nat.ne_of_gt hlt)

/-- A command is the same instruction in every copy, up to its target, which is the same place of
each copy. -/
theorem exists_read (hbody : body.Relocatable) (hc : c ∈ body.commands) (hb : b.type = c.type) :
    ∃ r : Except RuntimeError Instruction,
      (∀ base, b.read (c.rebase body.labels base).args =
        r.map (Instruction.mapTarget (base + ·))) ∧
        ∀ i, r = .ok i → ∀ a, i.target? = some a → a ≤ body.size := by
  cases hplace : b.addressPlace? with
  | none =>
    have hfixed := hbody.fixed_of_addressPlace?_eq_none hc hb hplace
    refine ⟨b.read c.args, fun base => ?_, fun i hi a ha => ?_⟩
    · rw [Command.rebase, Expr.map_rebase_of_fixed hfixed]
      cases hi : b.read c.args with
      | error e => rfl
      | ok i =>
        have hnowhere := Builtin.target?_eq_none_of_read hplace hi
        rw [Except.map, Instruction.mapTarget_of_target? hnowhere]
    · rw [Builtin.target?_eq_none_of_read hplace hi] at ha
      cases ha
  | some k =>
    obtain ⟨args, e, a, hargs, rfl, hfixed, hle, ha⟩ :=
      hbody.exists_args_of_addressPlace? hc hb hplace
    refine ⟨b.read (args ++ [Expr.address a]), fun base => ?_, fun i hi a' ha' => ?_⟩
    · rw [← Builtin.read_append_address hplace, Command.rebase, hargs, List.map_append,
        Expr.map_rebase_of_fixed hfixed, List.map_singleton, ha.rebase]
    · have htarget := (Builtin.read_spec hi).2 a' ha'
      rw [Builtin.target?_of_address hplace List.getElem?_concat_length] at htarget
      cases htarget
      exact hle

end Script.Relocatable

namespace Machine
variable {ε : Type}

/-- The script holds a copy of the body from an address on, and the machine serves its commands. -/
structure HoldsCopy [Environment ε] (m : Machine ε) (body : Script) (base : Address) : Prop where
  base_pos : 1 ≤ base
  command : ∀ p c, body.command? p = some c →
    m.script.command? (base + p) = some (c.rebase body.labels base)
  handler : ∀ c ∈ body.commands, ∀ b : Builtin, b.type = c.type →
    m.handler? c.type = some b.handler

/-- Where a body was copied to is a copy of it. -/
theorem ServesBuiltins.holdsCopy [Environment ε] {m : Machine ε}
    (hm : m.ServesBuiltins) {body : Script} {base : Address} (hbase : 1 ≤ base)
    (h : body.Spliced base m.script) : m.HoldsCopy body base where
  base_pos := hbase
  command p c hc := by
    rw [Nat.add_comm]
    exact h.command? hc
  handler c hc b hb := by
    obtain ⟨p, hp⟩ := Array.getElem?_of_mem hc
    exact hm.handler?_of_mem (Array.mem_of_getElem? (h.command? hp)) hb

/-- Two frames at the same place of two copies, with calls pending from the same places. -/
structure Aligned (b₁ b₂ p : Address) (qs : List Address) (f₁ f₂ : Frame ε) : Prop where
  pc₁ : f₁.pc = b₁ + p
  pc₂ : f₂.pc = b₂ + p
  env : f₁.env = f₂.env
  saved₁ : f₁.stack.toList = qs.map (b₁ + ·)
  saved₂ : f₂.stack.toList = qs.map (b₂ + ·)

/-- How a step at a place of one copy compares with the step at that place of another: they fail
with one error, or on full stacks, or leave by a return that finds no call, or go on to one place.
That place lies in the body or at its end, or it is where a return finds that a call came from. -/
inductive SameStep (body : Script) (m₁ m₂ : Machine ε) (b₁ b₂ p : Address) (qs : List Address)
    (r₁ r₂ : Reply ε Bool) : Prop
  | fails (e : RuntimeError) (h₁ : r₁.result = .error e) (h₂ : r₂.result = .error e)
  | overflows (hfull : qs.length = CallStack.limit)
    (h₁ : r₁.result = .error (.callStackOverflow CallStack.limit (b₁ + p + 1)))
    (h₂ : r₂.result = .error (.callStackOverflow CallStack.limit (b₂ + p + 1)))
  | leaves (hqs : qs = []) (hret : body.ReturnsAt p)
    (h₁ : ∃ more, r₁.result = .ok more) (h₂ : ∃ more, r₂.result = .ok more)
    (hpc₁ : r₁.frame.pc = m₁.script.size) (hpc₂ : r₂.frame.pc = m₂.script.size)
    (henv : r₁.frame.env = r₂.frame.env)
  | goesOn (p' : Address) (qs' : List Address) (h₁ : ∃ more, r₁.result = .ok more)
    (h₂ : ∃ more, r₂.result = .ok more) (haligned : Aligned b₁ b₂ p' qs' r₁.frame r₂.frame)
    (hplace : p' ≤ body.size ∨ body.ReturnsAt p ∧ qs = p' :: qs')
    (hplaces : (∀ q ∈ qs, q ≤ body.size) → p' ≤ body.size ∧ ∀ q ∈ qs', q ≤ body.size)

variable [Environment ε]

theorem HoldsCopy.reads {m : Machine ε} {f : Frame ε} {body : Script} {base p : Address}
    (h : m.HoldsCopy body base) (hpc : f.pc = base + p) {c : Command}
    (hc : body.command? p = some c) {b : Builtin} (hb : b.type = c.type) :
    m.Reads f (b.read (c.rebase body.labels base).args) := by
  refine ⟨c.rebase body.labels base, b, ?_, ?_, rfl⟩
  · rw [hpc]
    exact h.command p c hc
  · exact h.handler c (Array.mem_of_getElem? hc) b hb

/-- A return goes to the address on top of the stack, or to the end of the script. -/
theorem Reads.step_ret {m : Machine ε} {f : Frame ε} (h : m.Reads f (.ok .ret)) :
    (∃ more, (m.step f).result = .ok more) ∧
      (m.step f).frame.pc = f.stack.toList.head?.getD m.script.size ∧
      (m.step f).frame.env = f.env ∧ (m.step f).frame.stack.toList = f.stack.toList.tail := by
  obtain ⟨hhead, htail⟩ := f.stack.toList_pop
  obtain ⟨hok, hframe⟩ := h.step_perform_ok (Instruction.perform_ret m.script f)
  rw [hframe, ← hhead, ← htail]
  exact ⟨hok, rfl, rfl, rfl⟩

section Sites
variable {m₁ m₂ : Machine ε} {body : Script} {b₁ b₂ p : Address} {qs : List Address}
  {f₁ f₂ : Frame ε} {i : Instruction}

theorem sameStep_of_local (hf : Aligned b₁ b₂ p qs f₁ f₂) (hp : p < body.size)
    (htarget : ∀ a, i.target? = some a → a ≤ body.size) (hcall : ∀ a, i ≠ .call a)
    (hret : i ≠ .ret) (h₁ : m₁.Reads f₁ (.ok (i.mapTarget (b₁ + ·))))
    (h₂ : m₂.Reads f₂ (.ok (i.mapTarget (b₂ + ·)))) :
    SameStep body m₁ m₂ b₁ b₂ p qs (m₁.step f₁) (m₂.step f₂) := by
  have hi₁ := Instruction.perform_mapTarget hcall hret (b₁ + ·) m₁.script f₁
  have hi₂ := Instruction.perform_mapTarget hcall hret (b₂ + ·) m₂.script f₂
  rw [← hf.env] at hi₂
  cases halone : (i.alone f₁.env).result with
  | error e =>
    rw [halone] at hi₁ hi₂
    exact .fails e (h₁.step_perform_error hi₁) (h₂.step_perform_error hi₂)
  | ok flow =>
    rw [halone] at hi₁ hi₂
    obtain ⟨hok₁, hframe₁⟩ := h₁.step_perform_ok hi₁
    obtain ⟨hok₂, hframe₂⟩ := h₂.step_perform_ok hi₂
    cases flow with
    | next =>
      refine .goesOn (p + 1) qs hok₁ hok₂ ?_ (.inl hp) (fun hqs => ⟨hp, hqs⟩)
      rw [hframe₁, hframe₂]
      exact ⟨congrArg (· + 1) hf.pc₁, congrArg (· + 1) hf.pc₂, rfl, hf.saved₁, hf.saved₂⟩
    | jump a =>
      have ha : a ≤ body.size := htarget a (Instruction.target?_of_alone hcall hret halone)
      refine .goesOn a qs hok₁ hok₂ ?_ (.inl ha) (fun hqs => ⟨ha, hqs⟩)
      rw [hframe₁, hframe₂]
      exact ⟨rfl, rfl, rfl, hf.saved₁, hf.saved₂⟩

theorem sameStep_of_call (hf : Aligned b₁ b₂ p qs f₁ f₂) (hp : p < body.size) {a : Address}
    (ha : a ≤ body.size) (hb₁ : 1 ≤ b₁) (hb₂ : 1 ≤ b₂)
    (h₁ : m₁.Reads f₁ (.ok (.call (b₁ + a)))) (h₂ : m₂.Reads f₂ (.ok (.call (b₂ + a)))) :
    SameStep body m₁ m₂ b₁ b₂ p qs (m₁.step f₁) (m₂.step f₂) := by
  -- A copy never begins at zero, so that no target is the one that calls nothing.
  have hi₁ : (Instruction.call (b₁ + a)).perform m₁.script f₁ = _ :=
    Action.call_eq (Nat.ne_of_gt (Nat.add_pos_left hb₁ a)) h₁.lt_size
  have hi₂ : (Instruction.call (b₂ + a)).perform m₂.script f₂ = _ :=
    Action.call_eq (Nat.ne_of_gt (Nat.add_pos_left hb₂ a)) h₂.lt_size
  have hdepth₁ : f₁.stack.depth = qs.length := by
    rw [← CallStack.length_toList, hf.saved₁, List.length_map]
  have hdepth₂ : f₂.stack.depth = qs.length := by
    rw [← CallStack.length_toList, hf.saved₂, List.length_map]
  by_cases hroom : qs.length < CallStack.limit
  · obtain ⟨stack₁, hpush₁⟩ := CallStack.exists_push (hdepth₁ ▸ hroom) (f₁.pc + 1)
    obtain ⟨stack₂, hpush₂⟩ := CallStack.exists_push (hdepth₂ ▸ hroom) (f₂.pc + 1)
    rw [hpush₁] at hi₁
    rw [hpush₂] at hi₂
    obtain ⟨hok₁, hframe₁⟩ := h₁.step_perform_ok hi₁
    obtain ⟨hok₂, hframe₂⟩ := h₂.step_perform_ok hi₂
    refine .goesOn a ((p + 1) :: qs) hok₁ hok₂ ?_ (.inl ha)
      (fun hqs => ⟨ha, List.forall_mem_cons.mpr ⟨hp, hqs⟩⟩)
    rw [hframe₁, hframe₂]
    refine ⟨rfl, rfl, hf.env, ?_, ?_⟩
    · rw [List.map_cons, ← hf.saved₁, ← Nat.add_assoc, ← hf.pc₁]
      exact CallStack.toList_push hpush₁
    · rw [List.map_cons, ← hf.saved₂, ← Nat.add_assoc, ← hf.pc₂]
      exact CallStack.toList_push hpush₂
  · have hle : qs.length ≤ CallStack.limit := hdepth₁ ▸ f₁.stack.depth_le
    have hfull : qs.length = CallStack.limit := Nat.le_antisymm hle (Nat.le_of_not_lt hroom)
    rw [CallStack.push_eq_error (hdepth₁.trans hfull)] at hi₁
    rw [CallStack.push_eq_error (hdepth₂.trans hfull)] at hi₂
    refine .overflows hfull ?_ ?_
    · rw [← hf.pc₁]
      exact h₁.step_perform_error hi₁
    · rw [← hf.pc₂]
      exact h₂.step_perform_error hi₂

theorem sameStep_of_ret (hf : Aligned b₁ b₂ p qs f₁ f₂) (hret : body.ReturnsAt p)
    (h₁ : m₁.Reads f₁ (.ok .ret)) (h₂ : m₂.Reads f₂ (.ok .ret)) :
    SameStep body m₁ m₂ b₁ b₂ p qs (m₁.step f₁) (m₂.step f₂) := by
  obtain ⟨hok₁, hpc₁, henv₁, hstack₁⟩ := h₁.step_ret
  obtain ⟨hok₂, hpc₂, henv₂, hstack₂⟩ := h₂.step_ret
  have henv : (m₁.step f₁).frame.env = (m₂.step f₂).frame.env := by rw [henv₁, henv₂, hf.env]
  rw [hf.saved₁] at hpc₁ hstack₁
  rw [hf.saved₂] at hpc₂ hstack₂
  cases qs with
  | nil => exact .leaves rfl hret hok₁ hok₂ hpc₁ hpc₂ henv
  | cons q qs =>
    exact .goesOn q qs hok₁ hok₂ ⟨hpc₁, hpc₂, henv, hstack₁, hstack₂⟩ (.inr ⟨hret, rfl⟩)
      List.forall_mem_cons.mp

/-- A macro does the same at every site, whatever else is in the two scripts. From the same place of
two copies, with the same host and with calls pending from the same places, both steps fail with the
same error, or on a full stack with return addresses of the same place, or both leave for the ends
of their scripts by a return with no calls pending, or both come to the same place again. That one
lies in the body or at its end, unless the step returns to a call from elsewhere. -/
theorem HoldsCopy.sameStep (hm₁ : m₁.HoldsCopy body b₁) (hbody : body.Relocatable)
    (hm₂ : m₂.HoldsCopy body b₂) (hp : p < body.size) (hf : Aligned b₁ b₂ p qs f₁ f₂) :
    SameStep body m₁ m₂ b₁ b₂ p qs (m₁.step f₁) (m₂.step f₂) := by
  obtain ⟨c, hc⟩ : ∃ c, body.command? p = some c := ⟨_, Array.getElem?_eq_getElem hp⟩
  have hmem : c ∈ body.commands := Array.mem_of_getElem? hc
  obtain ⟨b, hb⟩ := hbody.builtin c hmem
  obtain ⟨r, hread, htarget⟩ := hbody.exists_read hmem hb
  have h₁ := hm₁.reads hf.pc₁ hc hb
  have h₂ := hm₂.reads hf.pc₂ hc hb
  rw [hread] at h₁ h₂
  cases r with
  | error e => exact .fails e h₁.step_error h₂.step_error
  | ok i =>
    cases i with
    | call a => exact sameStep_of_call hf hp (htarget _ rfl a rfl) hm₁.base_pos hm₂.base_pos h₁ h₂
    | ret =>
      have hret : Builtin.ret = b := (Builtin.read_spec (hread 0)).1
      exact sameStep_of_ret hf ⟨c, hc, by rw [hret, hb]⟩ h₁ h₂
    | _ => exact sameStep_of_local hf hp (htarget _ rfl) nofun nofun h₁ h₂

/-- A loop with a call in it, used twice behind another command. -/
theorem HoldsCopy.sameStep_loop :
    let body : Script :=
      ⟨#[⟨Builtin.jumpIf.type, [.var ⟨0⟩, .integer 2, .label "done"]⟩,
        ⟨Builtin.call.type, [.label "next"]⟩, ⟨Builtin.goto.type, [.address 0]⟩,
        ⟨Builtin.add.type, [.var ⟨0⟩, .integer 1]⟩, ⟨Builtin.ret.type, []⟩],
        ((∅ : NameTable Address).insert "next" 3).insert "done" 5, ∅, ∅⟩
    let script : Script := ((Script.empty.push ⟨Builtin.nop.type, []⟩).splice body).splice body
    body.Relocatable ∧
      ∃ m : Machine Memory, (Assembly.ofScript script : Assembly Memory).build.result = .ok m ∧
        m.HoldsCopy body 1 ∧ m.HoldsCopy body 6 ∧
        ∃ f₁ f₂, m.after (.start 1 .empty) 3 = .ok f₁ ∧ m.after (.start 6 .empty) 3 = .ok f₂ ∧
          Aligned 1 6 4 [2] f₁ f₂ ∧ SameStep body m m 1 6 4 [2] (m.step f₁) (m.step f₂) := by
  intro body script
  have hcases {c : Command} (hc : c ∈ body.commands) :
      c = ⟨Builtin.jumpIf.type, [.var ⟨0⟩, .integer 2, .label "done"]⟩ ∨
        c = ⟨Builtin.call.type, [.label "next"]⟩ ∨ c = ⟨Builtin.goto.type, [.address 0]⟩ ∨
        c = ⟨Builtin.add.type, [.var ⟨0⟩, .integer 1]⟩ ∨ c = ⟨Builtin.ret.type, []⟩ := by
    simpa [body] using hc
  have hbody : body.Relocatable := by
    constructor
    · simp [body]
    · intro c hc n hn
      rcases hcases hc with rfl | rfl | rfl | rfl | rfl <;> cases hn <;> rfl
    · intro c hc b k e hb he hk
      rcases hcases hc with rfl | rfl | rfl | rfl | rfl <;> cases b <;> cases hb <;> cases hk <;>
        cases he
      · exact ⟨5, by decide, .label (by decide)⟩
      · exact ⟨3, by decide, .label (by decide)⟩
      · exact ⟨0, by decide, .address 0⟩
    · intro c hc b k e hb he hk
      rcases hcases hc with rfl | rfl | rfl | rfl | rfl <;> cases b <;> cases hb <;>
        rcases k with _ | _ | _ | k <;> cases he <;>
        first | exact absurd rfl hk | simp [Expr.Fixed, Expr.leaves]
  have hscript : ∀ c ∈ script.commands, ∃ b : Builtin, b.type = c.type := by
    intro c hc
    rcases Array.mem_append.mp hc with hfirst | hsecond
    · rcases Array.mem_append.mp hfirst with hnop | hfirst
      · have htype : c = ⟨Builtin.nop.type, []⟩ := by simpa [Script.push, Script.empty] using hnop
        exact ⟨.nop, by rw [htype]⟩
      · obtain ⟨d, hd, rfl⟩ := Array.mem_map.mp hfirst
        exact hbody.builtin d hd
    · obtain ⟨d, hd, rfl⟩ := Array.mem_map.mp hsecond
      exact hbody.builtin d hd
  obtain ⟨m, hbuild, f₁, f₂, hf₁, hf₂, haligned⟩ : ∃ m : Machine Memory,
      (Assembly.ofScript script : Assembly Memory).build.result = .ok m ∧
        ∃ f₁ f₂, m.after (.start 1 .empty) 3 = .ok f₁ ∧ m.after (.start 6 .empty) 3 = .ok f₂ ∧
          Aligned 1 6 4 [2] f₁ f₂ :=
    ⟨_, by cbv, _, _, by cbv, by cbv, by rfl, by rfl, by rfl, by rfl, by rfl⟩
  have hsame : m.script = script := (Assembly.script_of_build hbuild).1
  have hm : m.ServesBuiltins := servesBuiltins_of_build hscript hbuild
  have hfirst : m.HoldsCopy body 1 := hm.holdsCopy (by decide) (by
    rw [hsame]
    exact ⟨_, rfl, .splice .refl body⟩)
  have hsecond : m.HoldsCopy body 6 := hm.holdsCopy (by decide) (by
    rw [hsame]
    exact ⟨_, by cbv, .refl⟩)
  exact ⟨hbody, m, hbuild, hfirst, hsecond, f₁, f₂, hf₁, hf₂, haligned,
    hfirst.sameStep hbody hsecond (by decide) haligned⟩

/-- The body is a single return, and two calls from the same place behind the copies bring two frames
to them. Both steps succeed and neither frame comes to the end of the script, yet the place that both
come to lies behind the body. -/
theorem HoldsCopy.sameStep_leaves_body :
    let text := "macro m\nret\nendmacro\nnop\na: m\nb: m\ncall a\ncall b\nnop"
    let names : Registries := { Registries.empty with
      commands := ⟨[("call", ⟨9⟩), ("nop", ⟨1⟩), ("ret", ⟨10⟩)]⟩ }
    let body : Script := ⟨#[⟨Builtin.ret.type, []⟩], ∅, ∅, ∅⟩
    let script : Script :=
      ⟨#[⟨Builtin.nop.type, []⟩, ⟨Builtin.ret.type, []⟩, ⟨Builtin.ret.type, []⟩,
        ⟨Builtin.call.type, [.address 1]⟩, ⟨Builtin.call.type, [.address 2]⟩,
        ⟨Builtin.nop.type, []⟩], ⟨[("a", 1), ("b", 2)]⟩, ⟨[("m", body)]⟩, ∅⟩
    (compile text names ⟨1, 2⟩).result = .ok script ∧ body.Relocatable ∧
      ∃ m : Machine Memory, (Assembly.ofScript script : Assembly Memory).build.result = .ok m ∧
        m.HoldsCopy body 1 ∧ m.HoldsCopy body 2 ∧
        ∃ f₁ f₂, m.after (.start 3 .empty) 1 = .ok f₁ ∧ m.after (.start 4 .empty) 1 = .ok f₂ ∧
          Aligned 1 2 0 [3] f₁ f₂ ∧
          ¬((∃ e₁ e₂, (m.step f₁).result = .error e₁ ∧ (m.step f₂).result = .error e₂) ∨
            ((m.step f₁).frame.pc = m.script.size ∧ (m.step f₂).frame.pc = m.script.size) ∨
            ∃ p' qs', p' ≤ body.size ∧ Aligned 1 2 p' qs' (m.step f₁).frame (m.step f₂).frame) := by
  intro text names body script
  have hcompile : (compile text names ⟨1, 2⟩).result = .ok script := by cbv
  have hcases {c : Command} (hc : c ∈ body.commands) : c = ⟨Builtin.ret.type, []⟩ := by
    simpa [body] using hc
  have hbody : body.Relocatable := by
    constructor
    · intro c hc
      exact ⟨.ret, by rw [hcases hc]⟩
    · intro c hc n hn
      rw [hcases hc] at hn ⊢
      cases hn
      rfl
    · intro c hc b k e hb he
      rw [hcases hc] at he
      cases he
    · intro c hc b k e hb he
      rw [hcases hc] at he
      cases he
  have hscript : ∀ c ∈ script.commands, ∃ b : Builtin, b.type = c.type := by
    simp [script]
  obtain ⟨m, hbuild, f₁, f₂, hf₁, hf₂, haligned⟩ : ∃ m : Machine Memory,
      (Assembly.ofScript script : Assembly Memory).build.result = .ok m ∧
        ∃ f₁ f₂, m.after (.start 3 .empty) 1 = .ok f₁ ∧ m.after (.start 4 .empty) 1 = .ok f₂ ∧
          Aligned 1 2 0 [3] f₁ f₂ :=
    ⟨_, by cbv, _, _, by cbv, by cbv, by rfl, by rfl, by rfl, by rfl, by rfl⟩
  have hsame : m.script = script := (Assembly.script_of_build hbuild).1
  have hm : m.ServesBuiltins := servesBuiltins_of_build hscript hbuild
  have hcopy {base : Address} (hbase : 1 ≤ base)
      (hret : m.script.command? base = some ⟨Builtin.ret.type, []⟩) : m.HoldsCopy body base := by
    refine ⟨hbase, fun p c hc => ?_, fun c hc b hb => ?_⟩
    · have hp : p = 0 := Nat.lt_one_iff.mp (Array.getElem?_eq_some_iff.mp hc).1
      rw [hp, hcases (Array.mem_of_getElem? hc)]
      exact hret
    · rw [hcases hc] at hb ⊢
      exact hm.handler?_of_mem (Array.mem_of_getElem? hret) hb
  have hfirst : m.HoldsCopy body 1 := hcopy (by decide) (by rw [hsame]; rfl)
  have hsecond : m.HoldsCopy body 2 := hcopy (by decide) (by rw [hsame]; rfl)
  -- The return goes to the address behind the first call, which is place three of the first copy.
  have hread : m.Reads f₁ (.ok .ret) := hfirst.reads haligned.pc₁ rfl (b := .ret) rfl
  obtain ⟨⟨more, hok⟩, hreturn, -, -⟩ := hread.step_ret
  have hpc : (m.step f₁).frame.pc = 4 := by
    rw [hreturn, haligned.saved₁]
    rfl
  refine ⟨hcompile, hbody, m, hbuild, hfirst, hsecond, f₁, f₂, hf₁, hf₂, haligned, ?_⟩
  rintro (⟨e₁, -, he₁, -⟩ | ⟨hend, -⟩ | ⟨p', qs', hp', hafter⟩)
  · rw [hok] at he₁
    cases he₁
  · rw [hpc, hsame] at hend
    cases hend
  · have hplace : 4 = 1 + p' := hpc.symm.trans hafter.pc₁
    have hsize : body.size = 1 := rfl
    omega

end Sites

end Machine

end CommandScript
