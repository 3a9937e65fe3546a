import CommandScript.Machine.Run
import CommandScript.Proofs.Outcome
/-! # What a built table holds

A table that builds has every handler of its slots at the same place, and all commands of the script
have a place in it. So a table without handlers of the host's own serves the built-in commands, and
a script that it is built for has no other commands than these and the empty one.
-/
namespace CommandScript

namespace Assembly
variable {ε : Type}

theorem size_bindSlot (slots : Array (Option (Handler ε))) (index : Nat) (h : Handler ε) :
    (bindSlot slots index h).size = max slots.size (index + 1) := by
  simp only [bindSlot, Array.size_setIfInBounds, Array.size_append, Array.size_replicate]
  omega

/-- Binding a slot fills it and no other one. -/
theorem join_getElem?_bindSlot (slots : Array (Option (Handler ε))) (index : Nat) (h : Handler ε)
    (place : Nat) :
    (bindSlot slots index h)[place]?.join = if place = index then some h else slots[place]?.join := by
  unfold bindSlot
  rw [Array.getElem?_setIfInBounds]
  by_cases hplace : index = place
  · subst hplace
    have hindex : index < (slots ++ Array.replicate (index + 1 - slots.size) none).size := by
      rw [Array.size_append, Array.size_replicate]
      omega
    rw [if_pos rfl, if_pos hindex, if_pos rfl, Option.join_some]
  · rw [if_neg hplace, if_neg (Ne.symm hplace), Array.getElem?_append]
    split
    · rfl
    · rename_i hout
      rw [Array.getElem?_eq_none (Nat.le_of_not_lt hout), Array.getElem?_replicate]
      split <;> rfl

/-- The handler of a slot that may stay empty. -/
def idle : Handler ε := fun _ => return .next

theorem handlersFrom_cons (index : Nat) (slot : Option (Handler ε))
    (slots : List (Option (Handler ε))) :
    handlersFrom index (slot :: slots) =
      if slot.isNone ∧ index ≠ 0 then .error (.unboundCommand ⟨index.toUInt32⟩)
      else (handlersFrom (index + 1) slots).map (slot.getD idle :: ·) := by
  cases slot with
  | some own =>
    rw [handlersFrom, if_neg (by simp)]
    cases handlersFrom (index + 1) slots <;> rfl
  | none =>
    rw [handlersFrom]
    by_cases hzero : index = 0
    · rw [if_pos hzero, if_neg (by simp [hzero])]
      cases handlersFrom (index + 1) slots <;> rfl
    · rw [if_neg hzero, if_pos ⟨rfl, hzero⟩]
      rfl

/-- Handlers come of a row of slots without a gap, one of each slot. -/
theorem handlersFrom_eq_ok_iff {index : Nat} {slots : List (Option (Handler ε))}
    {handlers : List (Handler ε)} :
    handlersFrom index slots = .ok handlers ↔
      (∀ place, index + place ≠ 0 → slots[place]? ≠ some none) ∧
        handlers = slots.map (fun slot => slot.getD idle) := by
  induction slots generalizing index handlers with
  | nil => simp [handlersFrom, eq_comm]
  | cons slot slots ih =>
    rw [handlersFrom_cons]
    by_cases hgap : slot.isNone ∧ index ≠ 0
    · rw [if_pos hgap]
      refine ⟨fun h => (by cases h), fun h => ?_⟩
      exact absurd (by simpa using hgap.1) (h.1 0 hgap.2)
    · have hrow : (∀ place, index + place ≠ 0 → (slot :: slots)[place]? ≠ some none) ↔
          ∀ place, index + 1 + place ≠ 0 → slots[place]? ≠ some none := by
        constructor
        · intro h place _
          simpa using h (place + 1) (by omega)
        · intro h place hplace
          cases place with
          | zero => exact fun hnone => hgap ⟨by simpa using hnone, hplace⟩
          | succ place => simpa using h place (by omega)
      rw [if_neg hgap, hrow, List.map_cons]
      cases hrest : handlersFrom (index + 1) slots with
      | ok rest =>
        obtain ⟨hfull, rfl⟩ := ih.mp hrest
        refine ⟨fun h => ?_, fun h => ?_⟩
        · cases h
          exact ⟨hfull, rfl⟩
        · rw [h.2]
          rfl
      | error e =>
        refine ⟨fun h => (by cases h), fun h => ?_⟩
        have hok := ih.mpr ⟨h.1, rfl⟩
        rw [hrest] at hok
        cases hok

/-- What a table is built from: its slots, and empty ones up to the least size of a table. -/
def allSlots (a : Assembly ε) : List (Option (Handler ε)) :=
  (a.slots ++ Array.replicate (a.size - a.slots.size) none).toList

theorem length_allSlots (a : Assembly ε) : a.allSlots.length = a.size := by
  rw [allSlots, Array.length_toList, Array.size_append, Array.size_replicate]
  exact Nat.add_sub_cancel' (Nat.le_max_left ..)

theorem getElem?_allSlots {a : Assembly ε} {place : Nat} (h : place < a.size) :
    a.allSlots[place]? = some a.slots[place]?.join := by
  rw [allSlots, Array.getElem?_toList, Array.getElem?_append]
  split
  · rename_i hslot
    rw [Array.getElem?_eq_getElem hslot, Option.join_some]
  · rename_i hslot
    have hpad : place - a.slots.size < a.size - a.slots.size := by omega
    rw [Array.getElem?_replicate, if_pos hpad, Array.getElem?_eq_none (Nat.le_of_not_lt hslot)]
    rfl

theorem build_result (a : Assembly ε) :
    a.build.result = handlersFrom 0 a.allSlots >>= fun handlers =>
      match a.script.commands.find? (fun c => a.size ≤ c.type.index) with
      | some c => .error (.unboundCommand c.type)
      | none => .ok ⟨a.script, handlers.toArray⟩ := by
  simp only [build, Logged.result_bind, Logged.result_lift]
  refine congrArg _ (funext fun handlers => ?_)
  cases a.script.commands.find? (fun c => decide (a.size ≤ c.type.index)) <;> rfl

/-- A row of slots has no gap if every slot but the first is filled. -/
theorem full_allSlots_iff {a : Assembly ε} :
    (∀ place, 0 + place ≠ 0 → a.allSlots[place]? ≠ some none) ↔
      ∀ place < a.size, place ≠ 0 → a.slots[place]?.join ≠ none := by
  constructor
  · intro h place hlt hplace hnone
    refine h place (by omega) ?_
    rw [getElem?_allSlots hlt, hnone]
  · intro h place hplace hnone
    have hlt : place < a.size := length_allSlots a ▸ (List.getElem?_eq_some_iff.mp hnone).1
    rw [getElem?_allSlots hlt] at hnone
    exact h place hlt (by omega) (Option.some.inj hnone)

/-- What a table that builds is made of. -/
theorem build_eq_ok_iff {a : Assembly ε} {m : Machine ε} : a.build.result = .ok m ↔
    (∀ place < a.size, place ≠ 0 → a.slots[place]?.join ≠ none) ∧
      (∀ c ∈ a.script.commands, c.type.index < a.size) ∧
        m = ⟨a.script, (a.allSlots.map (fun slot => slot.getD idle)).toArray⟩ := by
  have hinside : a.script.commands.find? (fun c => decide (a.size ≤ c.type.index)) = none ↔
      ∀ c ∈ a.script.commands, c.type.index < a.size := by
    simp only [Array.find?_eq_none, decide_eq_true_eq, Nat.not_le]
  rw [build_result, ← full_allSlots_iff, ← hinside]
  constructor
  · intro h
    obtain ⟨handlers, hhandlers, h⟩ := exists_of_bind_eq_ok h
    obtain ⟨hslots, rfl⟩ := handlersFrom_eq_ok_iff.mp hhandlers
    split at h
    · cases h
    · rename_i hnone
      cases h
      exact ⟨hslots, hnone, rfl⟩
  · rintro ⟨hslots, hnone, rfl⟩
    rw [handlersFrom_eq_ok_iff.mpr ⟨hslots, rfl⟩, ok_bind, hnone]

theorem script_of_build {a : Assembly ε} {m : Machine ε} (h : a.build.result = .ok m) :
    m.script = a.script ∧ ∀ c ∈ a.script.commands, c.type.index < a.size := by
  obtain ⟨-, hcommands, rfl⟩ := build_eq_ok_iff.mp h
  exact ⟨rfl, hcommands⟩

theorem size_handlers_of_build {a : Assembly ε} {m : Machine ε} (h : a.build.result = .ok m) :
    m.handlers.size = a.size := by
  obtain ⟨-, -, rfl⟩ := build_eq_ok_iff.mp h
  rw [List.size_toArray, List.length_map, length_allSlots]

theorem handler?_eq_of_build {a : Assembly ε} {m : Machine ε} (h : a.build.result = .ok m)
    (type : CommandType) :
    m.handler? type =
      if type.index < a.size then some (a.slots[type.index]?.join.getD idle) else none := by
  obtain ⟨-, -, rfl⟩ := build_eq_ok_iff.mp h
  rw [Machine.handler?, List.getElem?_toArray, List.getElem?_map]
  split
  · rename_i hlt
    rw [getElem?_allSlots hlt, Option.map_some]
  · rename_i hout
    rw [List.getElem?_eq_none (length_allSlots a ▸ Nat.le_of_not_lt hout), Option.map_none]

theorem handler?_of_build {a : Assembly ε} {m : Machine ε} (h : a.build.result = .ok m)
    {type : CommandType} {handler : Handler ε}
    (hslot : a.slots[type.index]?.join = some handler) : m.handler? type = some handler := by
  have hindex : type.index < a.slots.size :=
    (Array.getElem?_eq_some_iff.mp (Option.join_eq_some_iff.mp hslot)).1
  have hsize : type.index < a.size := Nat.lt_of_lt_of_le hindex (Nat.le_max_left ..)
  rw [handler?_eq_of_build h, if_pos hsize, hslot]
  rfl

section Builtin
variable [Environment ε] {script : Script} {m : Machine ε}

theorem slot_ofScript (script : Script) (b : Builtin) :
    (ofScript script : Assembly ε).slots[b.type.index]?.join = some b.handler := by
  cases b <;>
    simp [ofScript, Builtin.all, join_getElem?_bindSlot, Builtin.type, CommandType.index]

theorem size_ofScript (script : Script) :
    (ofScript script : Assembly ε).size = CommandType.firstHost := by
  simp [ofScript, size, Builtin.all, size_bindSlot, Builtin.type, CommandType.index,
    CommandType.firstHost]

/-- A table of the built-in commands has a built-in command for each command of its script. -/
theorem exists_builtin_of_build (h : (ofScript script : Assembly ε).build.result = .ok m)
    {c : Command} (hc : c ∈ script.commands) (hnone : c.type ≠ .none) :
    ∃ b : Builtin, b.type = c.type ∧ m.handler? c.type = some b.handler := by
  have hindex := (script_of_build h).2 c hc
  rw [size_ofScript] at hindex
  obtain ⟨b, hb⟩ := Builtin.exists_type_of_index_lt hnone hindex
  refine ⟨b, hb, ?_⟩
  rw [← hb]
  exact handler?_of_build h (slot_ofScript script b)

end Builtin

end Assembly

end CommandScript
