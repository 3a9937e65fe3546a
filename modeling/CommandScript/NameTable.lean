/-! # Name tables

A table gives some names a value. Its entries stand in the byte order of their names, each name
once, so the first entry that meets a condition is also the one with the least name.
-/
namespace CommandScript

structure NameTable (α : Type) where
  entries : List (String × α)
deriving Inhabited

namespace NameTable
variable {α : Type}

def empty : NameTable α := ⟨[]⟩

instance : EmptyCollection (NameTable α) := ⟨empty⟩

/-- Puts an entry at its place in an ordered list, over an entry of the same name. -/
def insertEntry (name : String) (a : α) : List (String × α) → List (String × α)
  | [] => [(name, a)]
  | (n, b) :: rest =>
    if name < n then (name, a) :: (n, b) :: rest
    else if name = n then (name, a) :: rest
    else (n, b) :: insertEntry name a rest

def insert (t : NameTable α) (name : String) (a : α) : NameTable α := ⟨insertEntry name a t.entries⟩

def get? (t : NameTable α) (name : String) : Option α := t.entries.lookup name

theorem lookup_insertEntry (name m : String) (a : α) (es : List (String × α)) :
    (insertEntry name a es).lookup m = if m = name then some a else es.lookup m := by
  induction es with
  | nil =>
    by_cases h : m = name
    · simp [insertEntry, h]
    · simp [insertEntry, List.lookup_cons, h, beq_false_of_ne h]
  | cons e rest ih =>
    obtain ⟨n, b⟩ := e
    unfold insertEntry
    split
    · by_cases h : m = name
      · simp [h]
      · simp [List.lookup_cons, h, beq_false_of_ne h]
    · split
      · rename_i hn
        subst hn
        by_cases h : m = name
        · simp [h]
        · simp [List.lookup_cons, h, beq_false_of_ne h]
      · rename_i hn
        by_cases h : m = n
        · subst h
          simp [Ne.symm hn]
        · have hb : (m == n) = false := by simpa using h
          simp [List.lookup_cons, hb, ih]

@[simp] theorem get?_insert (t : NameTable α) (name m : String) (a : α) :
    (t.insert name a).get? m = if m = name then some a else t.get? m :=
  lookup_insertEntry name m a t.entries

@[simp] theorem get?_empty (m : String) : (∅ : NameTable α).get? m = none := rfl

def contains (t : NameTable α) (name : String) : Bool := (t.get? name).isSome

def size (t : NameTable α) : Nat := t.entries.length

def ofList (entries : List (String × α)) : NameTable α :=
  entries.foldl (fun t e => t.insert e.1 e.2) empty

/-- All names of both tables; a name of both keeps its value in `own`. -/
def merge (base own : NameTable α) : NameTable α :=
  own.entries.foldl (fun t e => t.insert e.1 e.2) base

/-- Later tables win. -/
def mergeAll (base : NameTable α) (tables : List (NameTable α)) : NameTable α :=
  tables.foldl merge base

/-- The least name whose value meets the condition. -/
def nameWhere? (t : NameTable α) (p : α → Bool) : Option String :=
  (t.entries.find? (fun e => p e.2)).map (·.1)

/-- Every name whose value meets the condition, in order. -/
def namesWhere (t : NameTable α) (p : α → Bool) : List String :=
  (t.entries.filter (fun e => p e.2)).map (·.1)

end NameTable

end CommandScript
