import CommandScript.Proofs.Machine.Table
import Mathlib
/-! # Complete tables

A host registers handlers in any order, with gaps and repeats, and the table grows as the types ask
for it. It builds exactly if no host type below its end is left out and every command of the script
lies inside. A gap counts before a command outside: the least type that was left out is what
building fails with, and only a table without gaps goes on to look at the script. In a table that
builds, each type has the handler that was registered for it last, or else its built-in one.
-/
namespace CommandScript

namespace Assembly
variable {ε : Type}

/-- Registers handlers one by one. -/
def registerEach (a : Assembly ε) (calls : List (CommandType × Handler ε)) : Assembly ε :=
  calls.foldl (fun a call => a.register call.1 call.2) a

/-- The end of the built-in types, or of the registered ones if that lies behind. -/
def tableSize (calls : List (CommandType × Handler ε)) : Nat :=
  (calls.map (fun call => call.1.index + 1)).foldr max CommandType.firstHost

/-- Some handler was registered for the type. -/
def Registers (calls : List (CommandType × Handler ε)) (type : CommandType) : Prop :=
  ∃ handler, (type, handler) ∈ calls

/-- A host type below the end of the table that no handler was registered for. -/
structure LeftOut (calls : List (CommandType × Handler ε)) (type : CommandType) : Prop where
  firstHost_le : CommandType.firstHost ≤ type.index
  lt_size : type.index < tableSize calls
  not_registers : ¬Registers calls type

/-- Every host type below the end of the table is registered, and every command of the script lies
in the table. -/
structure Complete (script : Script) (calls : List (CommandType × Handler ε)) : Prop where
  registers : ∀ type : CommandType, CommandType.firstHost ≤ type.index →
    type.index < tableSize calls → Registers calls type
  command_lt : ∀ c ∈ script.commands, c.type.index < tableSize calls

theorem Complete.not_leftOut {script : Script} {calls : List (CommandType × Handler ε)}
    (h : Complete script calls) (type : CommandType) : ¬LeftOut calls type := fun hleft =>
  hleft.not_registers (h.registers type hleft.firstHost_le hleft.lt_size)

/-- The type that an incomplete table fails with. -/
inductive Fails (script : Script) (calls : List (CommandType × Handler ε)) : CommandType → Prop
  | gap {type : CommandType} (h : LeftOut calls type)
    (hleast : ∀ other, LeftOut calls other → type.index ≤ other.index) : Fails script calls type
  | outside {before after : List Command} {c : Command} (hgap : ∀ type, ¬LeftOut calls type)
    (hcut : script.commands.toList = before ++ c :: after)
    (hbefore : ∀ d ∈ before, d.type.index < tableSize calls)
    (hout : tableSize calls ≤ c.type.index) : Fails script calls c.type

/-- The handler that a type has after all calls. -/
inductive BoundTo [Environment ε] (calls : List (CommandType × Handler ε)) :
    CommandType → Handler ε → Prop
  | registered {type : CommandType} {handler : Handler ε}
    {before after : List (CommandType × Handler ε)}
    (hcut : calls = before ++ (type, handler) :: after) (hlast : ¬Registers after type) :
    BoundTo calls type handler
  | builtin {b : Builtin} (h : ¬Registers calls b.type) : BoundTo calls b.type b.handler
  | none (h : ¬Registers calls .none) : BoundTo calls .none Builtin.nop.handler

section Slots

/-- Handlers bound to slots in order. -/
def bindSlots (slots : Array (Option (Handler ε))) (entries : List (CommandType × Handler ε)) :
    Array (Option (Handler ε)) :=
  entries.foldl (fun slots e => bindSlot slots e.1.index e.2) slots

theorem foldl_registerNext (done : List Event × Assembly ε)
    (entries : List (CommandType × Handler ε)) :
    (entries.foldl registerNext done).2 =
      ⟨done.2.script, bindSlots done.2.slots entries⟩ := by
  induction entries generalizing done with
  | nil => rfl
  | cons e entries ih => exact ih (registerNext done e)

/-- The last handler for a slot wins; without one the slot keeps what it held. -/
theorem join_getElem?_bindSlots (slots : Array (Option (Handler ε)))
    (entries : List (CommandType × Handler ε)) (place : Nat) :
    (bindSlots slots entries)[place]?.join =
      ((entries.reverse.find? (fun e => e.1.index == place)).map (·.2)).or slots[place]?.join := by
  induction entries generalizing slots with
  | nil => rfl
  | cons e entries ih =>
    have hfirst := ih (bindSlot slots e.1.index e.2)
    rw [join_getElem?_bindSlot] at hfirst
    have hlast : bindSlots slots (e :: entries) =
      bindSlots (bindSlot slots e.1.index e.2) entries := rfl
    rw [hlast, hfirst, List.reverse_cons, List.find?_append]
    cases entries.reverse.find? (fun e => e.1.index == place) with
    | some last => rfl
    | none =>
      by_cases hplace : place = e.1.index
      · simp [hplace]
      · simp [hplace, Ne.symm hplace]

/-- The table ends behind its old end and behind every type that was registered. -/
theorem size_bindSlots_le_iff (slots : Array (Option (Handler ε)))
    (entries : List (CommandType × Handler ε)) (n : Nat) :
    (bindSlots slots entries).size ≤ n ↔ slots.size ≤ n ∧ ∀ e ∈ entries, e.1.index < n := by
  induction entries generalizing slots with
  | nil => simp [bindSlots]
  | cons e entries ih =>
    have hlast : bindSlots slots (e :: entries) =
      bindSlots (bindSlot slots e.1.index e.2) entries := rfl
    rw [hlast, ih, size_bindSlot, List.forall_mem_cons]
    constructor
    · rintro ⟨hsize, hentries⟩
      exact ⟨by omega, by omega, hentries⟩
    · rintro ⟨hsize, hfirst, hentries⟩
      exact ⟨by omega, hentries⟩

variable (a : Assembly ε) (calls : List (CommandType × Handler ε))

theorem registerEach_eq : a.registerEach calls = ⟨a.script, bindSlots a.slots calls⟩ := by
  induction calls generalizing a with
  | nil => rfl
  | cons call calls ih => exact ih (a.register call.1 call.2)

theorem registerAll_eq_registerEach : (a.registerAll calls).2 = a.registerEach calls := by
  rw [registerAll, foldl_registerNext, registerEach_eq]

/-- However the calls are put together, the result is that of the single ones. -/
theorem foldl_registerAll (batches : List (List (CommandType × Handler ε))) :
    batches.foldl (fun a batch => (a.registerAll batch).2) a = a.registerEach batches.flatten := by
  induction batches generalizing a with
  | nil => rfl
  | cons batch batches ih =>
    rw [List.foldl_cons, ih, registerAll_eq_registerEach, registerEach, registerEach, registerEach,
      List.flatten_cons, List.foldl_append]

end Slots

section Types
variable {calls : List (CommandType × Handler ε)} {type : CommandType}

theorem tableSize_le_iff {n : Nat} :
    tableSize calls ≤ n ↔ CommandType.firstHost ≤ n ∧ ∀ call ∈ calls, call.1.index < n := by
  induction calls with
  | nil => simp [tableSize]
  | cons call calls ih =>
    have hcons : tableSize (call :: calls) = max (call.1.index + 1) (tableSize calls) := rfl
    rw [hcons, max_le_iff, ih, List.forall_mem_cons, Nat.succ_le_iff]
    exact and_left_comm

/-- The table ends behind a type, so every place in it is one of a type. -/
theorem tableSize_le_size : tableSize calls ≤ UInt32.size :=
  tableSize_le_iff.mpr ⟨by decide, fun call _ => call.1.handle.toNat_lt_size⟩

/-- The last call for a type, if there is one. -/
theorem find?_reverse_eq_some_iff {handler : Handler ε} :
    calls.reverse.find? (fun call => call.1.index == type.index) = some (type, handler) ↔
      ∃ before after, calls = before ++ (type, handler) :: after ∧ ¬Registers after type := by
  rw [List.find?_eq_some_iff_append]
  constructor
  · rintro ⟨-, after, before, hcut, hlast⟩
    refine ⟨before.reverse, after.reverse, ?_, ?_⟩
    · rw [← List.reverse_reverse calls, hcut]
      simp
    · rintro ⟨other, hmem⟩
      simpa using hlast _ (List.mem_reverse.mp hmem)
  · rintro ⟨before, after, rfl, hlast⟩
    refine ⟨beq_self_eq_true _, after.reverse, before.reverse, by simp, fun call hmem => ?_⟩
    have hne : call.1.index ≠ type.index := by
      intro hindex
      refine hlast ⟨call.2, ?_⟩
      rw [← CommandType.index_inj.mp hindex]
      exact List.mem_reverse.mp hmem
    simpa using hne

theorem find?_reverse_eq_none_iff :
    calls.reverse.find? (fun call => call.1.index == type.index) = none ↔ ¬Registers calls type := by
  rw [List.find?_eq_none]
  constructor
  · rintro h ⟨handler, hmem⟩
    exact h _ (List.mem_reverse.mpr hmem) (beq_self_eq_true _)
  · intro h call hmem hindex
    refine h ⟨call.2, ?_⟩
    rw [← CommandType.index_inj.mp (eq_of_beq hindex)]
    exact List.mem_reverse.mp hmem

theorem LeftOut.ne_none (h : LeftOut calls type) : type ≠ .none := by
  rintro rfl
  exact absurd h.firstHost_le (by decide)

end Types

section Failures
variable {a : Assembly ε}

/-- The first gap is what a row of slots fails with. -/
theorem handlersFrom_of_gap {index place : Nat} {slots : List (Option (Handler ε))}
    (hgap : slots[place]? = some none) (hplace : index + place ≠ 0)
    (hbefore : ∀ earlier < place, index + earlier ≠ 0 → slots[earlier]? ≠ some none) :
    handlersFrom index slots = .error (.unboundCommand ⟨(index + place).toUInt32⟩) := by
  induction slots generalizing index place with
  | nil => cases hgap
  | cons slot slots ih =>
    rw [handlersFrom_cons]
    cases place with
    | zero => rw [if_pos ⟨by simpa using hgap, hplace⟩, Nat.add_zero]
    | succ place =>
      have hfirst : ¬(slot.isNone ∧ index ≠ 0) := by
        rintro ⟨hnone, hindex⟩
        exact hbefore 0 (Nat.succ_pos _) hindex (by simpa using hnone)
      have hrest : ∀ earlier < place, index + 1 + earlier ≠ 0 → slots[earlier]? ≠ some none := by
        intro earlier hlt _
        simpa using hbefore (earlier + 1) (by omega) (by omega)
      have herror : handlersFrom (index + 1) slots =
          .error (.unboundCommand ⟨(index + 1 + place).toUInt32⟩) :=
        ih (by simpa using hgap) (by omega) hrest
      rw [if_neg hfirst, herror, Nat.add_assoc, Nat.add_comm 1 place]
      rfl

theorem build_of_gap {place : Nat} (hlt : place < a.size) (hplace : place ≠ 0)
    (hgap : a.slots[place]?.join = none)
    (hbefore : ∀ earlier < place, earlier ≠ 0 → a.slots[earlier]?.join ≠ none) :
    a.build.result = .error (.unboundCommand ⟨place.toUInt32⟩) := by
  have hrow : ∀ earlier < place, 0 + earlier ≠ 0 → a.allSlots[earlier]? ≠ some none := by
    intro earlier hearlier hzero hnone
    rw [getElem?_allSlots (hearlier.trans hlt)] at hnone
    exact hbefore earlier hearlier (by omega) (Option.some.inj hnone)
  have hslot : a.allSlots[place]? = some none := by rw [getElem?_allSlots hlt, hgap]
  rw [build_result, handlersFrom_of_gap hslot (by omega) hrow, Nat.zero_add]
  rfl

theorem build_of_outside (hfull : ∀ place < a.size, place ≠ 0 → a.slots[place]?.join ≠ none)
    {before after : List Command} {c : Command}
    (hcut : a.script.commands.toList = before ++ c :: after)
    (hbefore : ∀ d ∈ before, d.type.index < a.size) (hout : a.size ≤ c.type.index) :
    a.build.result = .error (.unboundCommand c.type) := by
  have hfind : a.script.commands.find? (fun c => decide (a.size ≤ c.type.index)) = some c := by
    rw [← Array.find?_toList, List.find?_eq_some_iff_append]
    refine ⟨decide_eq_true hout, before, after, hcut, fun d hd => ?_⟩
    simpa using hbefore d hd
  rw [build_result, handlersFrom_eq_ok_iff.mpr ⟨full_allSlots_iff.mpr hfull, rfl⟩, ok_bind, hfind]

end Failures

section Handlers
variable [Environment ε] {calls : List (CommandType × Handler ε)} {type : CommandType}

theorem size_slots_ofScript_le (script : Script) :
    (ofScript script : Assembly ε).slots.size ≤ CommandType.firstHost :=
  (Nat.le_max_left ..).trans_eq (size_ofScript (ε := ε) script)

/-- Without the host, the slots of built-in types are filled and no other ones. -/
theorem slot_ofScript_eq (script : Script) (type : CommandType) :
    (ofScript script : Assembly ε).slots[type.index]?.join =
      (Builtin.ofType? type).map Builtin.handler := by
  cases hbuiltin : Builtin.ofType? type with
  | some b => rw [← Builtin.type_of_ofType? hbuiltin, slot_ofScript, Option.map_some]
  | none =>
    have hnot : ∀ b : Builtin, b.type ≠ type := by
      rintro b rfl
      rw [Builtin.ofType?_type] at hbuiltin
      cases hbuiltin
    by_cases hnone : type = .none
    · subst hnone
      simp [ofScript, Builtin.all, join_getElem?_bindSlot, Builtin.type, CommandType.index,
        CommandType.none]
    · have hhost : CommandType.firstHost ≤ type.index := by
        by_contra hlt
        obtain ⟨b, hb⟩ := Builtin.exists_type_of_index_lt hnone (Nat.lt_of_not_le hlt)
        exact hnot b hb
      rw [Array.getElem?_eq_none ((size_slots_ofScript_le script).trans hhost)]
      rfl

theorem size_registerEach (script : Script) (calls : List (CommandType × Handler ε)) :
    ((ofScript script).registerEach calls).size = tableSize calls := by
  refine eq_of_forall_ge_iff fun n => ?_
  rw [size, registerEach_eq, max_le_iff, size_bindSlots_le_iff, tableSize_le_iff]
  constructor
  · rintro ⟨⟨-, hcalls⟩, hhost⟩
    exact ⟨hhost, hcalls⟩
  · rintro ⟨hhost, hcalls⟩
    exact ⟨⟨(size_slots_ofScript_le script).trans hhost, hcalls⟩, hhost⟩

theorem slot_registerEach (script : Script) (calls : List (CommandType × Handler ε))
    (type : CommandType) :
    ((ofScript script).registerEach calls).slots[type.index]?.join =
      ((calls.reverse.find? (fun call => call.1.index == type.index)).map (·.2)).or
        ((Builtin.ofType? type).map Builtin.handler) := by
  rw [registerEach_eq, join_getElem?_bindSlots, slot_ofScript_eq]

/-- A slot below the end of the table is empty if it is a host type's and left out, or the empty
command's. -/
theorem leftOut_of_slot (script : Script) (hlt : type.index < tableSize calls)
    (hnone : type ≠ .none)
    (hslot : ((ofScript script).registerEach calls).slots[type.index]?.join = none) :
    LeftOut calls type := by
  rw [slot_registerEach, Option.or_eq_none_iff, Option.map_eq_none_iff,
    find?_reverse_eq_none_iff, Option.map_eq_none_iff] at hslot
  refine ⟨?_, hlt, hslot.1⟩
  by_contra hhost
  obtain ⟨b, rfl⟩ := Builtin.exists_type_of_index_lt hnone (Nat.lt_of_not_le hhost)
  rw [Builtin.ofType?_type] at hslot
  cases hslot.2

theorem LeftOut.slot_eq_none (h : LeftOut calls type) (script : Script) :
    ((ofScript script).registerEach calls).slots[type.index]?.join = none := by
  have hbuiltin : Builtin.ofType? type = none := by
    cases hb : Builtin.ofType? type with
    | none => rfl
    | some b =>
      have hhost := h.firstHost_le
      rw [← Builtin.type_of_ofType? hb] at hhost
      exact absurd b.index_type_lt (Nat.not_lt_of_le hhost)
  rw [slot_registerEach, find?_reverse_eq_none_iff.mpr h.not_registers, hbuiltin]
  rfl

theorem BoundTo.slot_eq {handler : Handler ε} (h : BoundTo calls type handler) (script : Script) :
    ((ofScript script).registerEach calls).slots[type.index]?.join.getD idle = handler := by
  rw [slot_registerEach]
  cases h with
  | registered hcut hlast =>
    rw [find?_reverse_eq_some_iff.mpr ⟨_, _, hcut, hlast⟩]
    rfl
  | builtin hnot =>
    rw [find?_reverse_eq_none_iff.mpr hnot, Builtin.ofType?_type]
    rfl
  | none hnot =>
    rw [find?_reverse_eq_none_iff.mpr hnot]
    rfl

theorem boundTo_slot (script : Script) (hlt : type.index < tableSize calls)
    (hgap : ¬LeftOut calls type) :
    BoundTo calls type
      (((ofScript script).registerEach calls).slots[type.index]?.join.getD idle) := by
  rw [slot_registerEach]
  cases hfind : calls.reverse.find? (fun call => call.1.index == type.index) with
  | some call =>
    obtain ⟨type', handler⟩ := call
    have htype := List.find?_some hfind
    rw [beq_iff_eq, CommandType.index_inj] at htype
    subst htype
    obtain ⟨before, after, hcut, hlast⟩ := find?_reverse_eq_some_iff.mp hfind
    exact .registered hcut hlast
  | none =>
    have hnot := find?_reverse_eq_none_iff.mp hfind
    cases hbuiltin : Builtin.ofType? type with
    | some b =>
      obtain rfl := Builtin.type_of_ofType? hbuiltin
      exact .builtin hnot
    | none =>
      have hnone : type = .none := by
        by_contra hne
        refine hgap (leftOut_of_slot script hlt hne ?_)
        rw [slot_registerEach, hfind, hbuiltin]
        rfl
      subst hnone
      exact .none hnot

end Handlers

section Building
variable [Environment ε] {script : Script} {calls : List (CommandType × Handler ε)}
  {type : CommandType}

/-- Every empty slot but the first is that of a type that was left out. -/
theorem exists_leftOut_of_slot {place : Nat} (hlt : place < tableSize calls) (hplace : place ≠ 0)
    (hslot : ((ofScript script).registerEach calls).slots[place]?.join = none) :
    ∃ type, type.index = place ∧ LeftOut calls type := by
  have hindex : CommandType.index ⟨place.toUInt32⟩ = place :=
    UInt32.toNat_ofNat_of_lt' (hlt.trans_le tableSize_le_size)
  refine ⟨⟨place.toUInt32⟩, hindex, leftOut_of_slot script ?_ ?_ ?_⟩
  · rwa [hindex]
  · intro hnone
    rw [hnone] at hindex
    exact hplace hindex.symm
  · rwa [hindex]

theorem slot_ne_none (h : ∀ type, ¬LeftOut calls type) (script : Script) :
    ∀ place < tableSize calls, place ≠ 0 →
      ((ofScript script).registerEach calls).slots[place]?.join ≠ none := by
  intro place hlt hplace hslot
  obtain ⟨type, -, hgap⟩ := exists_leftOut_of_slot hlt hplace hslot
  exact h type hgap

theorem exists_build_of_complete (h : Complete script calls) :
    ∃ m, ((ofScript script).registerEach calls).build.result = .ok m := by
  refine ⟨_, build_eq_ok_iff.mpr ⟨?_, ?_, rfl⟩⟩
  · rw [size_registerEach]
    exact slot_ne_none h.not_leftOut script
  · rw [size_registerEach, registerEach_eq]
    exact h.command_lt

theorem build_of_fails (h : Fails script calls type) :
    ((ofScript script).registerEach calls).build.result = .error (.unboundCommand type) := by
  cases h with
  | gap hgap hleast =>
    have hlt : type.index < ((ofScript script).registerEach calls).size := by
      rw [size_registerEach]
      exact hgap.lt_size
    have hzero : type.index ≠ 0 := fun hzero => hgap.ne_none (CommandType.index_inj.mp hzero)
    have hbefore : ∀ earlier < type.index, earlier ≠ 0 →
        ((ofScript script).registerEach calls).slots[earlier]?.join ≠ none := by
      intro earlier hearlier hzero hslot
      obtain ⟨other, rfl, hother⟩ :=
        exists_leftOut_of_slot (hearlier.trans hgap.lt_size) hzero hslot
      exact absurd (hleast other hother) (Nat.not_le_of_lt hearlier)
    rw [build_of_gap hlt hzero (hgap.slot_eq_none script) hbefore, CommandType.toUInt32_index]
  | @outside before after c hgap hcut hbefore hout =>
    have hfull := slot_ne_none hgap script
    rw [← size_registerEach script] at hfull hbefore hout
    have hscript : ((ofScript script).registerEach calls).script = script := by
      rw [registerEach_eq, ofScript]
    rw [← hscript] at hcut
    exact build_of_outside hfull hcut hbefore hout

omit [Environment ε] in
theorem complete_or_fails (script : Script) (calls : List (CommandType × Handler ε)) :
    Complete script calls ∨ ∃ type, Fails script calls type := by
  classical
  by_cases hgap : ∃ place type, type.index = place ∧ LeftOut calls type
  · obtain ⟨type, hindex, hleft⟩ := Nat.find_spec hgap
    refine .inr ⟨type, .gap hleft fun other hother => ?_⟩
    rw [hindex]
    exact Nat.find_min' hgap ⟨other, rfl, hother⟩
  · have hnone : ∀ type, ¬LeftOut calls type := fun type h => hgap ⟨_, type, rfl, h⟩
    cases hfind : script.commands.toList.find? (fun c => tableSize calls ≤ c.type.index) with
    | none =>
      refine .inl ⟨fun type hlow hlt => ?_, fun c hc => ?_⟩
      · by_contra hnot
        exact hnone type ⟨hlow, hlt, hnot⟩
      · have hin := List.find?_eq_none.mp hfind c (Array.mem_toList_iff.mpr hc)
        rwa [decide_eq_true_eq, Nat.not_le] at hin
    | some c =>
      obtain ⟨hout, before, after, hcut, hbefore⟩ := List.find?_eq_some_iff_append.mp hfind
      refine .inr ⟨c.type, .outside hnone hcut (fun d hd => ?_) (of_decide_eq_true hout)⟩
      simpa using hbefore d hd

theorem build_registerEach_eq_ok_iff :
    (∃ m, ((ofScript script).registerEach calls).build.result = .ok m) ↔
      Complete script calls := by
  refine ⟨?_, exists_build_of_complete⟩
  rintro ⟨m, hbuild⟩
  rcases complete_or_fails script calls with hcomplete | ⟨type, hfails⟩
  · exact hcomplete
  · rw [build_of_fails hfails] at hbuild
    cases hbuild

theorem build_registerEach_eq_error_iff :
    ((ofScript script).registerEach calls).build.result = .error (.unboundCommand type) ↔
      Fails script calls type := by
  refine ⟨fun hbuild => ?_, build_of_fails⟩
  rcases complete_or_fails script calls with hcomplete | ⟨other, hfails⟩
  · obtain ⟨m, hok⟩ := exists_build_of_complete hcomplete
    rw [hok] at hbuild
    cases hbuild
  · rw [build_of_fails hfails] at hbuild
    cases hbuild
    exact hfails

theorem handler?_registerEach {m : Machine ε}
    (hbuild : ((ofScript script).registerEach calls).build.result = .ok m) {handler : Handler ε} :
    m.handler? type = some handler ↔
      type.index < tableSize calls ∧ BoundTo calls type handler := by
  have hcomplete : Complete script calls := build_registerEach_eq_ok_iff.mp ⟨m, hbuild⟩
  rw [handler?_eq_of_build hbuild, size_registerEach]
  split
  · rename_i hlt
    rw [Option.some.injEq]
    constructor
    · rintro rfl
      exact ⟨hlt, boundTo_slot script hlt (hcomplete.not_leftOut type)⟩
    · exact fun h => h.2.slot_eq script
  · rename_i hout
    exact ⟨fun h => (by cases h), fun h => absurd h.1 hout⟩

/-- Whatever is registered, in whatever order and in batches of whatever size: the table builds
exactly if it is complete, it then has the handlers that were registered last, and otherwise its
least gap or the first command outside of it is what building fails with. -/
theorem build_of_registrations (script : Script) (calls : List (CommandType × Handler ε)) :
    ((∃ m, ((ofScript script).registerEach calls).build.result = .ok m) ↔
      Complete script calls) ∧
    (∀ m, ((ofScript script).registerEach calls).build.result = .ok m →
      m.script = script ∧ m.handlers.size = tableSize calls ∧
        ∀ type handler, m.handler? type = some handler ↔
          type.index < tableSize calls ∧ BoundTo calls type handler) ∧
    (∀ type, ((ofScript script).registerEach calls).build.result = .error (.unboundCommand type) ↔
      Fails script calls type) ∧
    ∀ batches : List (List (CommandType × Handler ε)), batches.flatten = calls →
      batches.foldl (fun a batch => (a.registerAll batch).2) (ofScript script) =
        (ofScript script).registerEach calls := by
  refine ⟨build_registerEach_eq_ok_iff, fun m hbuild => ⟨?_, ?_, ?_⟩,
    fun type => build_registerEach_eq_error_iff, ?_⟩
  · rw [(script_of_build hbuild).1, registerEach_eq]
    rfl
  · rw [size_handlers_of_build hbuild, size_registerEach]
  · exact fun type handler => handler?_registerEach hbuild
  · rintro batches rfl
    exact foldl_registerAll (ofScript script) batches

end Building

end Assembly

end CommandScript
