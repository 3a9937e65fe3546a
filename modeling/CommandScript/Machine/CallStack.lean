import CommandScript.Machine.Fault
/-! # The call stack

Return addresses lie in a fixed row of slots, the live ones in front. A pop leaves its slot as it
is; what lies behind the live slots is never read.
-/
namespace CommandScript

/-- The most calls that may be pending. -/
def CallStack.limit : Nat := 16

structure CallStack where
  slots : Vector Address CallStack.limit
  depth : Nat
  depth_le : depth ≤ CallStack.limit

namespace CallStack

def empty : CallStack := ⟨Vector.replicate limit 0, 0, by decide⟩

instance : Inhabited CallStack := ⟨empty⟩

def push (s : CallStack) (pc : Address) : Except RuntimeError CallStack :=
  if h : s.depth < limit then .ok ⟨s.slots.set s.depth pc, s.depth + 1, h⟩
  else .error (.callStackOverflow limit pc)

def pop (s : CallStack) : Option Address × CallStack :=
  match s with
  | ⟨_, 0, _⟩ => (none, s)
  | ⟨slots, depth + 1, h⟩ => (some slots[depth], ⟨slots, depth, Nat.le_of_succ_le h⟩)

def isEmpty (s : CallStack) : Bool := s.depth == 0

/-- The pending return addresses, the latest first. -/
def toList (s : CallStack) : List Address := (s.slots.toList.take s.depth).reverse

@[simp] theorem toList_empty : empty.toList = [] := rfl

@[simp] theorem length_toList (s : CallStack) : s.toList.length = s.depth := by
  simp [toList, s.depth_le]

theorem toList_push {s s' : CallStack} {pc : Address} (h : s.push pc = .ok s') :
    s'.toList = pc :: s.toList := by
  unfold push at h
  split at h
  · cases h
    simp only [toList, Vector.toList_set]
    rw [List.take_add_one, List.getElem?_set_self (by simpa using ‹s.depth < limit›)]
    simp [List.take_set_of_le]
  · cases h

theorem exists_push {s : CallStack} (h : s.depth < limit) (pc : Address) :
    ∃ s', s.push pc = .ok s' :=
  ⟨_, dif_pos h⟩

theorem push_eq_error {s : CallStack} {pc : Address} (h : s.depth = limit) :
    s.push pc = .error (.callStackOverflow limit pc) := by
  simp [push, h]

theorem eq_overflow_of_push {s : CallStack} {pc : Address} {e : RuntimeError}
    (h : s.push pc = .error e) : e = .callStackOverflow limit pc := by
  unfold push at h
  split at h
  · cases h
  · exact (Except.error.inj h).symm

theorem toList_pop (s : CallStack) : s.pop.1 = s.toList.head? ∧ s.pop.2.toList = s.toList.tail := by
  obtain ⟨slots, depth, h⟩ := s
  cases depth with
  | zero => simp [pop, toList]
  | succ d =>
    have hd : d < slots.toList.length := by
      rw [Vector.length_toList]
      exact h
    simp only [pop, toList]
    rw [List.take_add_one, List.getElem?_eq_getElem hd]
    simp

end CallStack

end CommandScript
