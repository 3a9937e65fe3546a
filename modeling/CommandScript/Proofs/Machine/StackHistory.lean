import CommandScript.Machine.CallStack
import Mathlib
/-! # The history of a call stack

Whoever uses a call stack sees the answers to pushes and pops, and after each of them how many
addresses are pending. A list of the pending addresses, the latest first and of limited length, shows
the same: the live slots are that list, and nothing behind them is ever seen.
-/
namespace CommandScript

namespace CallStack

inductive Operation where
  | push (pc : Address)
  | pop
deriving DecidableEq, Repr

inductive Answer where
  | pushed
  | refused (e : RuntimeError)
  | popped (pc : Option Address)
deriving DecidableEq, Repr

/-- An answer, and what the store says of itself afterwards. -/
structure Observation where
  answer : Answer
  size : Nat
  isEmpty : Bool
deriving DecidableEq, Repr

/-- A store of return addresses, as its user sees it. -/
structure Store (σ : Type) where
  perform : σ → Operation → Answer × σ
  size : σ → Nat
  isEmpty : σ → Bool

namespace Store
variable {σ τ : Type}

def observe (S : Store σ) (s : σ) (op : Operation) : Observation :=
  let (answer, next) := S.perform s op
  ⟨answer, S.size next, S.isEmpty next⟩

/-- What is left after some operations. -/
def after (S : Store σ) (s : σ) (ops : List Operation) : σ :=
  ops.foldl (fun s op => (S.perform s op).2) s

/-- What is seen of some operations, one after the other. -/
def history (S : Store σ) (s : σ) : List Operation → List Observation
  | [] => []
  | op :: ops => S.observe s op :: S.history (S.perform s op).2 ops

@[simp] theorem length_history (S : Store σ) (s : σ) (ops : List Operation) :
    (S.history s ops).length = ops.length := by
  induction ops generalizing s with
  | nil => rfl
  | cons op ops ih => rw [history, List.length_cons, List.length_cons, ih]

theorem history_append (S : Store σ) (s : σ) (ops later : List Operation) :
    S.history s (ops ++ later) = S.history s ops ++ S.history (S.after s ops) later := by
  induction ops generalizing s with
  | nil => rfl
  | cons op ops ih =>
    rw [List.cons_append, history, history, List.cons_append, ih]
    rfl

/-- An operation that changes nothing can be left out, and so can what is seen of it. -/
theorem history_eraseIdx (S : Store σ) {s : σ} {ops : List Operation} {op : Operation}
    (h : (S.perform (S.after s ops) op).2 = S.after s ops) (later : List Operation) :
    (S.history s (ops ++ op :: later)).eraseIdx ops.length = S.history s (ops ++ later) := by
  rw [history_append, history_append, history, h,
    List.eraseIdx_append_of_length_le (Nat.le_of_eq (S.length_history s ops)), length_history,
    Nat.sub_self, List.eraseIdx_cons_zero]

/-- One store shows another one's states: each operation has the same answer in both, and what it
leaves in the second is what it leaves in the first, as shown. -/
structure Shows (S : Store σ) (T : Store τ) (view : σ → τ) : Prop where
  perform (s : σ) (op : Operation) :
    T.perform (view s) op = ((S.perform s op).1, view (S.perform s op).2)
  size (s : σ) : T.size (view s) = S.size s
  isEmpty (s : σ) : T.isEmpty (view s) = S.isEmpty s

namespace Shows
variable {S : Store σ} {T : Store τ} {view : σ → τ}

theorem observe (h : S.Shows T view) (s : σ) (op : Operation) :
    T.observe (view s) op = S.observe s op := by
  simp only [Store.observe, h.perform, h.size, h.isEmpty]

theorem history (h : S.Shows T view) (s : σ) (ops : List Operation) :
    T.history (view s) ops = S.history s ops := by
  induction ops generalizing s with
  | nil => rfl
  | cons op ops ih => rw [Store.history, Store.history, h.observe, h.perform, ih]

/-- What the view does not tell apart is never told apart. -/
theorem history_congr (h : S.Shows T view) {s s' : σ} (heq : view s = view s')
    (ops : List Operation) : S.history s ops = S.history s' ops := by
  rw [← h.history, heq, h.history]

end Shows

end Store

/-- The call stack; a push that is refused leaves it as it is. -/
def store : Store CallStack where
  perform s
    | .push pc =>
      match s.push pc with
      | .ok pushed => (.pushed, pushed)
      | .error e => (.refused e, s)
    | .pop => (.popped s.pop.1, s.pop.2)
  size := depth
  isEmpty := isEmpty

/-- A list of addresses, the latest first, that never grows beyond the limit. -/
def boundedList : Store (List Address) where
  perform
    | pcs, .push pc =>
      if pcs.length < limit then (.pushed, pc :: pcs)
      else (.refused (.callStackOverflow limit pc), pcs)
    | [], .pop => (.popped none, [])
    | pc :: pcs, .pop => (.popped (some pc), pcs)
  size := List.length
  isEmpty := List.isEmpty

theorem perform_boundedList (s : CallStack) (op : Operation) :
    boundedList.perform s.toList op = ((store.perform s op).1, (store.perform s op).2.toList) := by
  cases op with
  | push pc =>
    by_cases hroom : s.depth < limit
    · obtain ⟨pushed, hpush⟩ := exists_push hroom pc
      simp only [boundedList, store, hpush, length_toList, if_pos hroom, toList_push hpush]
    · have hfull : s.depth = limit := Nat.le_antisymm s.depth_le (Nat.le_of_not_lt hroom)
      simp only [boundedList, store, push_eq_error hfull, length_toList, if_neg hroom]
  | pop =>
    obtain ⟨hhead, htail⟩ := s.toList_pop
    simp only [store, hhead, htail]
    cases s.toList <;> rfl

/-- The live slots are all that a call stack shows. -/
theorem shows_toList : store.Shows boundedList toList where
  perform := perform_boundedList
  size := length_toList
  isEmpty s := by
    apply Bool.eq_iff_iff.mpr
    simp only [boundedList, store, isEmpty, List.isEmpty_iff_length_eq_zero, length_toList,
      beq_iff_eq]

theorem toList_eq_of_live {s : CallStack} {slots : Vector Address limit}
    (h : ∀ i < s.depth, slots[i]? = s.slots[i]?) :
    toList ⟨slots, s.depth, s.depth_le⟩ = s.toList := by
  refine congrArg List.reverse (List.ext_getElem? fun i => ?_)
  rw [List.getElem?_take, List.getElem?_take]
  split
  · rename_i hi
    rw [Vector.getElem?_toList, Vector.getElem?_toList, h i hi]
  · rfl

theorem perform_push_of_error {s : CallStack} {pc : Address} {e : RuntimeError}
    (h : s.push pc = .error e) : (store.perform s (.push pc)).2 = s := by
  simp only [store, h]

/-- For every sequence of operations on a new call stack, the answers and what the stack says of
itself after each of them are those of a list of limited length. A push that is refused can be
left out, and all else is seen as before. And whatever stands in the slots that are not live, no
sequence of operations ever shows it. -/
theorem history_of_list :
    (∀ ops, store.history empty ops = boundedList.history [] ops) ∧
    (∀ ops pc e, (store.after empty ops).push pc = .error e →
      e = .callStackOverflow limit pc ∧ ∀ later,
        (store.history empty (ops ++ .push pc :: later)).eraseIdx ops.length =
          store.history empty (ops ++ later)) ∧
    ∀ (s : CallStack) (slots : Vector Address limit), (∀ i < s.depth, slots[i]? = s.slots[i]?) →
      ∀ ops, store.history ⟨slots, s.depth, s.depth_le⟩ ops = store.history s ops := by
  refine ⟨fun ops => ?_, fun ops pc e h => ⟨eq_overflow_of_push h, ?_⟩, fun s slots h => ?_⟩
  · rw [← shows_toList.history, toList_empty]
  · exact store.history_eraseIdx (perform_push_of_error h)
  · exact shows_toList.history_congr (toList_eq_of_live h)

/-- A seventeenth call on top of sixteen, and two stacks with one pending call of which the second
still has the address of a call that is over. -/
theorem history_of_list_full :
    let calls := (List.range 16).map Operation.push
    let fresh := store.after empty [.push 4]
    let used := store.after empty [.push 4, .push 9, .pop]
    (store.after empty calls).push 99 = .error (.callStackOverflow 16 99) ∧
      (store.history empty (calls ++ [.push 99, .pop, .push 7, .pop])).eraseIdx 16 =
        store.history empty (calls ++ [.pop, .push 7, .pop]) ∧
      fresh.slots ≠ used.slots ∧ ∀ ops, store.history used ops = store.history fresh ops := by
  intro calls fresh used
  obtain ⟨-, hrefused, hstale⟩ := history_of_list
  have hfull : (store.after empty calls).push 99 = .error (.callStackOverflow 16 99) := by rfl
  refine ⟨hfull, (hrefused calls 99 _ hfull).2 _, by decide, ?_⟩
  refine hstale fresh used.slots fun i hi => ?_
  have hzero : i = 0 := Nat.lt_one_iff.mp hi
  rw [hzero]
  rfl

end CallStack

end CommandScript
