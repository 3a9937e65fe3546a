import CommandScript.Event
import CommandScript.Machine.Fault
/-! # Environments

The state of a host that a script runs against: variables that hold integers, and a way to call the
host with some values. A host may do as it likes with a call; without a way of its own it refuses
calls.
-/
namespace CommandScript

/-- What a host made of a call. -/
structure HostReply (ε : Type) where
  env : ε
  events : List Event
  result : Except RuntimeError Unit

class Environment (ε : Type) where
  get : ε → Variable → Int32
  set : ε → Variable → Int32 → ε
  copy : ε → Variable → Variable → ε := fun env source target => set env target (get env source)
  hostCall : ε → List Value → HostReply ε := fun env _ => ⟨env, [], .error .hostCallUnsupported⟩

/-- Variables that have been written, in the order of their handles. Others read as zero. -/
structure Storage where
  cells : List (Variable × Int32)
deriving DecidableEq, Repr

namespace Storage

def empty : Storage := ⟨[]⟩

instance : Inhabited Storage := ⟨empty⟩

def get (s : Storage) (v : Variable) : Int32 := (s.cells.lookup v).getD 0

def insertCell (v : Variable) (x : Int32) : List (Variable × Int32) → List (Variable × Int32)
  | [] => [(v, x)]
  | (w, y) :: rest =>
    if v.handle < w.handle then (v, x) :: (w, y) :: rest
    else if v = w then (v, x) :: rest
    else (w, y) :: insertCell v x rest

def set (s : Storage) (v : Variable) (x : Int32) : Storage := ⟨insertCell v x s.cells⟩

theorem lookup_insertCell (v w : Variable) (x : Int32) (cells : List (Variable × Int32)) :
    (insertCell v x cells).lookup w = if w = v then some x else cells.lookup w := by
  induction cells with
  | nil =>
    by_cases h : w = v
    · simp [insertCell, h]
    · simp [insertCell, List.lookup_cons, h, beq_false_of_ne h]
  | cons c rest ih =>
    obtain ⟨u, y⟩ := c
    unfold insertCell
    split
    · by_cases h : w = v
      · simp [h]
      · simp [List.lookup_cons, h, beq_false_of_ne h]
    · split
      · rename_i hv
        subst hv
        by_cases h : w = v
        · simp [h]
        · simp [List.lookup_cons, h, beq_false_of_ne h]
      · rename_i hv
        by_cases h : w = u
        · subst h
          simp [Ne.symm hv]
        · have hb : (w == u) = false := by simpa using h
          simp [List.lookup_cons, hb, ih]

@[simp] theorem get_set (s : Storage) (v w : Variable) (x : Int32) :
    (s.set v x).get w = if w = v then x else s.get w := by
  unfold get set
  rw [lookup_insertCell]
  split <;> rfl

end Storage

instance : Environment Storage where
  get := Storage.get
  set := Storage.set

/-- Storage together with a record of every host call. -/
structure Memory where
  storage : Storage
  hostCalls : Array (List Value)

def Memory.empty : Memory := ⟨.empty, #[]⟩

instance : Inhabited Memory := ⟨.empty⟩

instance : Environment Memory where
  get m v := m.storage.get v
  set m v x := { m with storage := m.storage.set v x }
  hostCall m values :=
    ⟨{ m with hostCalls := m.hostCalls.push values }, [.hostCalled values], .ok ()⟩

end CommandScript
