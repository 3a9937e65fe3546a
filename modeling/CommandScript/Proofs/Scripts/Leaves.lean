import CommandScript.Script.Linking
import CommandScript.Script.Splice
/-! # Leaves of expressions

Rebasing and linking look at the leaves of a tree only and keep its operators. Both are leafwise
maps: what they make of a tree is the tree with each leaf replaced by what they make of the leaf.
-/
namespace CommandScript

namespace Expr

/-- The leaves, from left to right. -/
def leaves : Expr → List Expr
  | unary _ e => e.leaves
  | binary _ l r => l.leaves ++ r.leaves
  | e => [e]

/-- The tree with something else in the place of each leaf. -/
def mapLeaves (f : Expr → Expr) : Expr → Expr
  | unary op e => unary op (e.mapLeaves f)
  | binary op l r => binary op (l.mapLeaves f) (r.mapLeaves f)
  | e => f e

theorem mapLeaves_id (e : Expr) : e.mapLeaves (fun x => x) = e := by
  induction e with
  | unary op e ih => rw [mapLeaves, ih]
  | binary op l r ihl ihr => rw [mapLeaves, ihl, ihr]
  | _ => rfl

theorem mapLeaves_mapLeaves (f g : Expr → Expr) (e : Expr) :
    (e.mapLeaves f).mapLeaves g = e.mapLeaves (fun x => (f x).mapLeaves g) := by
  induction e with
  | unary op e ih => simp only [mapLeaves, ih]
  | binary op l r ihl ihr => simp only [mapLeaves, ihl, ihr]
  | _ => rfl

theorem mapLeaves_congr {f g : Expr → Expr} {e : Expr} (h : ∀ x ∈ e.leaves, f x = g x) :
    e.mapLeaves f = e.mapLeaves g := by
  induction e with
  | unary op e ih => simp only [mapLeaves, ih h]
  | binary op l r ihl ihr =>
    rw [mapLeaves, mapLeaves, ihl (fun x hx => h x (List.mem_append_left _ hx)),
      ihr (fun x hx => h x (List.mem_append_right _ hx))]
  | _ => exact h _ List.mem_cons_self

theorem mem_leaves_mapLeaves {f : Expr → Expr} {e y : Expr} :
    y ∈ (e.mapLeaves f).leaves ↔ ∃ x ∈ e.leaves, y ∈ (f x).leaves := by
  induction e with
  | unary op e ih => exact ih
  | binary op l r ihl ihr =>
    simp only [mapLeaves, leaves, List.mem_append, ihl, ihr]
    constructor
    · rintro (⟨x, hx, hy⟩ | ⟨x, hx, hy⟩)
      · exact ⟨x, .inl hx, hy⟩
      · exact ⟨x, .inr hx, hy⟩
    · rintro ⟨x, hx | hx, hy⟩
      · exact .inl ⟨x, hx, hy⟩
      · exact .inr ⟨x, hx, hy⟩
  | _ => simp [mapLeaves, leaves]

/-- A tree without operators. -/
def IsLeaf : Expr → Prop
  | unary _ _ => False
  | binary _ _ _ => False
  | _ => True

theorem isLeaf_of_mem_leaves {e x : Expr} (h : x ∈ e.leaves) : x.IsLeaf := by
  induction e with
  | unary op e ih => exact ih h
  | binary op l r ihl ihr => exact (List.mem_append.mp h).elim ihl ihr
  | _ =>
    cases List.mem_singleton.mp h
    trivial

theorem rebase_eq_mapLeaves (labels : NameTable Address) (base : Address) (e : Expr) :
    e.rebase labels base = e.mapLeaves (rebase labels base) := by
  induction e with
  | unary op e ih => simp only [rebase, mapLeaves, ih]
  | binary op l r ihl ihr => simp only [rebase, mapLeaves, ihl, ihr]
  | _ => rfl

/-- A leaf that copying and linking leave alone. -/
structure Plain (x : Expr) : Prop where
  ne_label : ∀ name, x ≠ .label name
  ne_address : ∀ pc, x ≠ .address pc
  leaves_eq : x.leaves = [x]
  rebase_eq : ∀ labels base, x.rebase labels base = x
  link_eq : ∀ labels, x.link labels = ⟨x, 0, none⟩

theorem IsLeaf.label_or_address_or_plain {x : Expr} (hx : x.IsLeaf) :
    (∃ name, x = .label name) ∨ (∃ pc, x = .address pc) ∨ x.Plain := by
  cases x with
  | label name => exact .inl ⟨name, rfl⟩
  | address pc => exact .inr (.inl ⟨pc, rfl⟩)
  | unary op e => exact hx.elim
  | binary op l r => exact hx.elim
  | _ => exact .inr (.inr ⟨nofun, nofun, rfl, fun _ _ => rfl, fun _ => rfl⟩)

end Expr

namespace Linked
variable {α β γ : Type}

@[simp] theorem value_map (f : α → β) (l : Linked α) : (l.map f).value = f l.value := rfl

theorem missing_pair {f : α → β → γ} {first : Linked α} {untouched : β} {second : Linked β} :
    (first.pair f untouched second).missing = none ↔
      first.missing = none ∧ second.missing = none := by
  unfold pair
  cases h : first.missing <;> simp

theorem value_pair {f : α → β → γ} {first : Linked α} {untouched : β} {second : Linked β}
    (h : first.missing = none) :
    (first.pair f untouched second).value = f first.value second.value := by
  simp only [pair, h]

end Linked

theorem linkList_of_missing {α : Type} {link : α → Linked α} {xs : List α} :
    (linkList link xs).missing = none ↔ ∀ x ∈ xs, (link x).missing = none := by
  induction xs with
  | nil => simp [linkList]
  | cons x xs ih => simp only [linkList, Linked.missing_pair, ih, List.forall_mem_cons]

theorem value_linkList {α : Type} {link : α → Linked α} {xs : List α}
    (h : (linkList link xs).missing = none) :
    (linkList link xs).value = xs.map (fun x => (link x).value) := by
  induction xs with
  | nil => rfl
  | cons x xs ih =>
    obtain ⟨hx, hxs⟩ := Linked.missing_pair.mp h
    rw [linkList, Linked.value_pair hx, ih hxs, List.map_cons]

namespace Expr

theorem missing_link {labels : NameTable Address} {e : Expr} :
    (e.link labels).missing = none ↔ ∀ x ∈ e.leaves, (x.link labels).missing = none := by
  induction e with
  | unary op e ih => exact ih
  | binary op l r ihl ihr =>
    simp only [link, Linked.missing_pair, ihl, ihr, leaves, List.forall_mem_append]
  | _ => simp [leaves]

theorem value_link {labels : NameTable Address} {e : Expr} (h : (e.link labels).missing = none) :
    (e.link labels).value = e.mapLeaves (fun x => (x.link labels).value) := by
  induction e with
  | unary op e ih =>
    rw [link, Linked.value_map, ih h]
    rfl
  | binary op l r ihl ihr =>
    obtain ⟨hl, hr⟩ := Linked.missing_pair.mp h
    rw [link, Linked.value_pair hl, ihl hl, ihr hr]
    rfl
  | _ => rfl

theorem missing_link_label {labels : NameTable Address} {name : String} :
    ((label name).link labels).missing = none ↔ ∃ pc, labels.get? name = some pc := by
  unfold link
  cases labels.get? name <;> simp

end Expr

theorem Command.missing_link {labels : NameTable Address} {c : Command} :
    (c.link labels).missing = none ↔ ∀ e ∈ c.args, (e.link labels).missing = none :=
  linkList_of_missing

theorem Command.value_link {labels : NameTable Address} {c : Command}
    (h : (c.link labels).missing = none) :
    (c.link labels).value = ⟨c.type, c.args.map (fun e => (e.link labels).value)⟩ := by
  rw [link, Linked.value_map, value_linkList h]

namespace Script

theorem missing_link {s : Script} : s.link.missing = none ↔
    ∀ c ∈ s.commands, ∀ e ∈ c.args, (e.link s.labels).missing = none := by
  have hlist : s.link.missing = (linkList (Command.link s.labels) s.commands.toList).missing := rfl
  simp only [hlist, linkList_of_missing, Command.missing_link, Array.mem_toList_iff]

/-- Linking that misses no label links every argument and changes nothing else. -/
theorem value_link {s : Script} (h : s.link.missing = none) :
    s.link.value =
      ⟨s.commands.map (fun c => ⟨c.type, c.args.map (fun e => (e.link s.labels).value)⟩), s.labels,
        s.macros, s.constants⟩ := by
  have hlist : (linkList (Command.link s.labels) s.commands.toList).missing = none := h
  have hvalue : s.commands.toList.map (fun c => (c.link s.labels).value) =
      s.commands.toList.map (fun c => ⟨c.type, c.args.map (fun e => (e.link s.labels).value)⟩) :=
    List.map_congr_left (fun c hc => Command.value_link (linkList_of_missing.mp hlist c hc))
  rw [link, Linked.value_map, value_linkList hlist, hvalue, ← Array.toList_map, Array.toArray_toList]

end Script

end CommandScript
