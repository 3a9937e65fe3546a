import CommandScript.Compile
import CommandScript.Proofs.Scripts.Leaves
/-! # Linking in the order of the leaves

The leaves of a script stand in one row: command by command, argument by argument, and from left to
right in each tree. Linking goes along this row. It puts an address in the place of each label up to
the first one that is not declared, and it changes neither the shape of any tree nor what the script
declares. So what linking leaves behind is known also when it fails, and in the midst of a tree.
-/
namespace CommandScript

namespace Expr

def isLabel : Expr → Bool
  | label _ => true
  | _ => false

/-- The operators of a tree, with all leaves the same. -/
def shape (e : Expr) : Expr := e.mapLeaves (fun _ => default)

theorem shape_unary (op : UnaryOp) (e : Expr) : (unary op e).shape = unary op e.shape := rfl

theorem shape_binary (op : BinaryOp) (l r : Expr) :
    (binary op l r).shape = binary op l.shape r.shape := rfl

theorem leaves_of_isLeaf {x : Expr} (h : x.IsLeaf) : x.leaves = [x] := by
  cases x with
  | unary op e => exact h.elim
  | binary op l r => exact h.elim
  | _ => rfl

theorem isLeaf_of_shape {x : Expr} (h : x.shape = default) : x.IsLeaf := by
  cases x with
  | unary op e => cases h
  | binary op l r => cases h
  | _ => trivial

/-- A tree has as many leaves as any other of its shape. -/
theorem length_leaves_of_shape {e e' : Expr} (h : e.shape = e'.shape) :
    e.leaves.length = e'.leaves.length := by
  have hlength : ∀ e : Expr, e.shape.leaves.length = e.leaves.length := by
    intro e
    induction e with
    | unary op e ih => exact ih
    | binary op l r ihl ihr =>
      rw [shape_binary, leaves, leaves, List.length_append, List.length_append, ihl, ihr]
    | _ => rfl
  rw [← hlength e, ← hlength e', h]

/-- Shape and leaves make the tree. -/
theorem eq_of_shape {e e' : Expr} (hshape : e.shape = e'.shape) (hleaves : e.leaves = e'.leaves) :
    e = e' := by
  induction e generalizing e' with
  | unary op e ih =>
    cases e' with
    | unary op' e' =>
      rw [shape_unary, shape_unary] at hshape
      injection hshape with hop hshape
      rw [hop, ih hshape hleaves]
    | _ => cases hshape
  | binary op l r ihl ihr =>
    cases e' with
    | binary op' l' r' =>
      rw [shape_binary, shape_binary] at hshape
      injection hshape with hop hl hr
      obtain ⟨hleft, hright⟩ := List.append_inj hleaves (length_leaves_of_shape hl)
      rw [hop, ihl hl hleft, ihr hr hright]
    | _ => cases hshape
  | _ =>
    have hleaf : e'.IsLeaf := isLeaf_of_shape hshape.symm
    rw [leaves_of_isLeaf hleaf] at hleaves
    exact (List.cons.inj hleaves).1

/-- The address in the place of a label, if it is declared; any other tree stays. -/
def settled (labels : NameTable Address) : Expr → Expr
  | label name =>
    match labels.get? name with
    | some pc => address pc
    | none => label name
  | e => e

end Expr

/-- The leaves of all arguments, in order. -/
def Command.leaves (c : Command) : List Expr := c.args.flatMap Expr.leaves

def Command.shape (c : Command) : Command := ⟨c.type, c.args.map Expr.shape⟩

/-- The leaves of all commands, in order. -/
def Script.leaves (s : Script) : List Expr := s.commands.toList.flatMap Command.leaves

/-- The same commands up to the leaves of their arguments, and the same declarations. -/
structure Script.SameShape (s t : Script) : Prop where
  commands : s.commands.toList.map Command.shape = t.commands.toList.map Command.shape
  labels : s.labels = t.labels
  macros : s.macros = t.macros
  constants : s.constants = t.constants

section Rows
variable {α : Type} {shape : α → α} {leaves : α → List Expr}

theorem length_flatMap_of_shape
    (hlength : ∀ {a b}, shape a = shape b → (leaves a).length = (leaves b).length) {as bs : List α}
    (h : as.map shape = bs.map shape) : (as.flatMap leaves).length = (bs.flatMap leaves).length := by
  induction as generalizing bs with
  | nil =>
    obtain rfl := List.map_eq_nil_iff.mp h.symm
    rfl
  | cons a as ih =>
    obtain ⟨b, bs, rfl, hb, hbs⟩ := List.map_eq_cons_iff.mp h.symm
    simp only [List.flatMap_cons, List.length_append, hlength hb.symm, ih hbs.symm]

/-- Where shape and leaves make an item, the shapes and the row of all leaves make the list. -/
theorem eq_of_map_shape
    (hlength : ∀ {a b}, shape a = shape b → (leaves a).length = (leaves b).length)
    (heq : ∀ {a b}, shape a = shape b → leaves a = leaves b → a = b) {as bs : List α}
    (hshape : as.map shape = bs.map shape) (hleaves : as.flatMap leaves = bs.flatMap leaves) :
    as = bs := by
  induction as generalizing bs with
  | nil => exact (List.map_eq_nil_iff.mp hshape.symm).symm
  | cons a as ih =>
    obtain ⟨b, bs, rfl, hb, hbs⟩ := List.map_eq_cons_iff.mp hshape.symm
    simp only [List.flatMap_cons] at hleaves
    obtain ⟨hhead, htail⟩ := List.append_inj hleaves (hlength hb.symm)
    rw [heq hb.symm hhead, ih hbs.symm htail]

end Rows

theorem Command.length_leaves_of_shape {c c' : Command} (h : c.shape = c'.shape) :
    c.leaves.length = c'.leaves.length :=
  length_flatMap_of_shape Expr.length_leaves_of_shape (Command.mk.inj h).2

theorem Command.eq_of_shape {c c' : Command} (hshape : c.shape = c'.shape)
    (hleaves : c.leaves = c'.leaves) : c = c' := by
  obtain ⟨type, args⟩ := c
  obtain ⟨type', args'⟩ := c'
  obtain ⟨rfl, hargs⟩ := Command.mk.inj hshape
  have heq : args = args' :=
    eq_of_map_shape Expr.length_leaves_of_shape Expr.eq_of_shape hargs hleaves
  rw [heq]

/-- Shape and leaves make the script. -/
theorem Script.SameShape.eq {s t : Script} (h : s.SameShape t) (hleaves : s.leaves = t.leaves) :
    s = t := by
  obtain ⟨⟨commands⟩, labels, macros, constants⟩ := s
  obtain ⟨⟨commands'⟩, labels', macros', constants'⟩ := t
  obtain ⟨hcommands, rfl, rfl, rfl⟩ := h
  have heq : commands = commands' :=
    eq_of_map_shape Command.length_leaves_of_shape Command.eq_of_shape hcommands hleaves
  rw [heq]

section Order
variable {labels : NameTable Address}

/-- All labels of a row are declared. -/
def AllDeclared (labels : NameTable Address) (row : List Expr) : Prop :=
  ∀ name, .label name ∈ row → ∃ pc, labels.get? name = some pc

/-- What linking makes of a row of leaves: all of it is settled, or all in front of the first label
that is not declared. -/
inductive LinksRow (labels : NameTable Address) : List Expr → Linked (List Expr) → Prop
  | all {row : List Expr} (h : AllDeclared labels row) :
    LinksRow labels row ⟨row.map (Expr.settled labels), row.countP Expr.isLabel, none⟩
  | upTo {front back : List Expr} {name : String} (h : AllDeclared labels front)
    (hname : labels.get? name = none) :
    LinksRow labels (front ++ .label name :: back)
      ⟨front.map (Expr.settled labels) ++ .label name :: back, front.countP Expr.isLabel, some name⟩

/-- Two rows, one behind the other, are linked as one. -/
theorem LinksRow.append {row row' : List Expr} {l l' : Linked (List Expr)} (h : LinksRow labels row l)
    (h' : LinksRow labels row' l') :
    LinksRow labels (row ++ row') (l.pair (fun xs ys => xs ++ ys) row' l') := by
  cases h with
  | upTo hfront hname =>
    simp only [Linked.pair, List.append_assoc, List.cons_append]
    exact .upTo hfront hname
  | all hrow =>
    have happend : ∀ {xs : List Expr}, AllDeclared labels xs → AllDeclared labels (row ++ xs) :=
      fun hxs name hmem => (List.mem_append.mp hmem).elim (hrow name) (hxs name)
    cases h' with
    | all hrow' =>
      simp only [Linked.pair, ← List.map_append, ← List.countP_append]
      exact .all (happend hrow')
    | upTo hfront hname =>
      simp only [Linked.pair, ← List.append_assoc, ← List.map_append, ← List.countP_append]
      exact .upTo (happend hfront) hname

theorem Linked.map_pair {α β γ δ : Type} (f : α → β → γ) (g : γ → List δ) (g₁ : α → List δ)
    (g₂ : β → List δ) (hg : ∀ a b, g (f a b) = g₁ a ++ g₂ b) (l : Linked α) (b : β) (l' : Linked β) :
    (l.pair f b l').map g = (l.map g₁).pair (fun xs ys => xs ++ ys) (g₂ b) (l'.map g₂) := by
  unfold pair map
  cases l.missing <;> simp only [hg]

theorem Expr.linksRow (e : Expr) : LinksRow labels e.leaves ((e.link labels).map Expr.leaves) := by
  induction e with
  | unary op e ih => exact ih
  | binary op l r ihl ihr =>
    have hrow := ihl.append ihr
    rw [← Linked.map_pair (Expr.binary op) Expr.leaves _ _ (fun _ _ => rfl)] at hrow
    exact hrow
  | label name =>
    unfold Expr.link
    cases hname : labels.get? name with
    | none =>
      have hrow : LinksRow labels ([] ++ .label name :: []) _ :=
        .upTo (fun _ h => absurd h List.not_mem_nil) hname
      exact hrow
    | some pc =>
      have hall : AllDeclared labels [.label name] := by
        intro name' hmem
        cases List.mem_singleton.mp hmem
        exact ⟨pc, hname⟩
      have hrow := LinksRow.all hall
      simp only [List.map_cons, Expr.settled, hname] at hrow
      exact hrow
  | _ =>
    refine .all (fun name hmem => ?_)
    cases List.mem_singleton.mp hmem

/-- A list is linked as the row of the leaves of its items, if each item is. -/
theorem linksRow_linkList {α : Type} {link : α → Linked α} {leaves : α → List Expr}
    (hlink : ∀ a, LinksRow labels (leaves a) ((link a).map leaves)) (as : List α) :
    LinksRow labels (as.flatMap leaves) ((linkList link as).map (List.flatMap leaves)) := by
  induction as with
  | nil => exact .all (fun _ h => absurd h List.not_mem_nil)
  | cons a as ih =>
    have hrow := (hlink a).append ih
    rw [← Linked.map_pair List.cons (List.flatMap leaves) _ _ (fun _ _ => List.flatMap_cons)] at hrow
    exact hrow

end Order

theorem Script.linksRow (s : Script) : LinksRow s.labels s.leaves (s.link.map Script.leaves) :=
  linksRow_linkList (fun c => linksRow_linkList Expr.linksRow c.args) s.commands.toList

section Shape
variable {labels : NameTable Address}

theorem shape_pair {α β γ δ : Type} {f : α → β → γ} {shape : γ → δ} {l : Linked α} {a : α} {b : β}
    {l' : Linked β} (hl : ∀ y, shape (f l.value y) = shape (f a y))
    (hl' : shape (f a l'.value) = shape (f a b)) : shape (l.pair f b l').value = shape (f a b) := by
  unfold Linked.pair
  cases l.missing with
  | some name => exact hl b
  | none => exact (hl _).trans hl'

theorem Expr.shape_link (e : Expr) : (e.link labels).value.shape = e.shape := by
  induction e with
  | unary op e ih => exact congrArg (Expr.unary op) ih
  | binary op l r ihl ihr =>
    refine shape_pair (fun y => ?_) ?_
    · rw [shape_binary, shape_binary, ihl]
    · rw [shape_binary, shape_binary, ihr]
  | label name =>
    unfold Expr.link
    cases labels.get? name <;> rfl
  | _ => rfl

theorem map_shape_linkList {α : Type} {link : α → Linked α} {shape : α → α}
    (hlink : ∀ a, shape (link a).value = shape a) (as : List α) :
    (linkList link as).value.map shape = as.map shape := by
  induction as with
  | nil => rfl
  | cons a as ih =>
    refine shape_pair (fun bs => ?_) ?_
    · rw [List.map_cons, List.map_cons, hlink]
    · rw [List.map_cons, List.map_cons, ih]

theorem Command.shape_link (c : Command) : (c.link labels).value.shape = c.shape := by
  have hargs : (linkList (Expr.link labels) c.args).value.map Expr.shape = c.args.map Expr.shape :=
    map_shape_linkList Expr.shape_link c.args
  exact congrArg (Command.mk c.type) hargs

end Shape

/-- Linking, finished or not, changes nothing but leaves. -/
theorem Script.sameShape_link (s : Script) : s.link.value.SameShape s :=
  ⟨map_shape_linkList Command.shape_link s.commands.toList, rfl, rfl, rfl⟩

theorem Linked.settle_of_missing {l : Linked Script} {name : String} (h : l.missing = some name) :
    l.settle = ⟨[], .error (.unknownLabel name)⟩ := by
  unfold settle
  rw [h]
  rfl

theorem Linked.settle_of_none {l : Linked Script} (h : l.missing = none) :
    l.settle = ⟨[.labelsResolved l.count l.value.labels.size], .ok l.value⟩ := by
  unfold settle
  rw [h]
  rfl

/-- Settled leaves have nothing left to be settled. -/
theorem Expr.settled_of_declared {labels : NameTable Address} {row : List Expr}
    (h : AllDeclared labels row) : ∀ x ∈ row.map (settled labels), ∀ name, x ≠ .label name := by
  rintro x hx name rfl
  obtain ⟨y, hy, hsettled⟩ := List.mem_map.mp hx
  cases y with
  | label name' =>
    obtain ⟨pc, hpc⟩ := h name' hy
    simp only [settled, hpc] at hsettled
    cases hsettled
  | _ => cases hsettled

/-- How linking ends: with all labels settled, or at the first label that is not declared. -/
theorem Script.link_cases (s : Script) :
    (AllDeclared s.labels s.leaves ∧ s.link.missing = none ∧
        s.link.count = s.leaves.countP Expr.isLabel ∧
        s.link.value.leaves = s.leaves.map (Expr.settled s.labels)) ∨
      ∃ front name back, s.leaves = front ++ .label name :: back ∧ AllDeclared s.labels front ∧
        s.label? name = none ∧ s.link.missing = some name ∧
        s.link.value.leaves = front.map (Expr.settled s.labels) ++ .label name :: back := by
  have hrow := s.linksRow
  generalize s.leaves = row at hrow
  generalize hl : s.link.map Script.leaves = l at hrow
  have hvalue : s.link.value.leaves = l.value := congrArg Linked.value hl
  have hcount : s.link.count = l.count := congrArg Linked.count hl
  have hmissing : s.link.missing = l.missing := congrArg Linked.missing hl
  cases hrow with
  | all hall => exact .inl ⟨hall, hmissing, hcount, hvalue⟩
  | upTo hfront hname => exact .inr ⟨_, _, _, rfl, hfront, hname, hmissing, hvalue⟩

/-- A script without labels in its arguments is linked already. -/
theorem Script.link_of_no_label {s : Script} (h : ∀ name, .label name ∉ s.leaves) :
    s.link = ⟨s, 0, none⟩ := by
  rcases s.link_cases with ⟨-, hmissing, hcount, hleaves⟩ | ⟨front, name, back, hrow, -⟩
  · have hsettled : s.leaves.map (Expr.settled s.labels) = s.leaves := by
      refine (List.map_congr_left (fun x hx => ?_)).trans (List.map_id _)
      cases x with
      | label name => exact absurd hx (h name)
      | _ => rfl
    have hzero : s.leaves.countP Expr.isLabel = 0 := by
      refine List.countP_eq_zero.mpr (fun x hx => ?_)
      cases x with
      | label name => exact absurd hx (h name)
      | _ => exact Bool.false_ne_true
    have hvalue : s.link.value = s := s.sameShape_link.eq (hleaves.trans hsettled)
    rw [hzero] at hcount
    generalize s.link = l at hmissing hcount hvalue
    obtain ⟨value, count, missing⟩ := l
    cases hmissing
    cases hcount
    cases hvalue
    rfl
  · refine absurd ?_ (h name)
    rw [hrow]
    exact List.mem_append_right _ List.mem_cons_self

theorem Script.exists_settle_iff (s : Script) :
    (∃ t, s.link.settle.result = .ok t) ↔ AllDeclared s.labels s.leaves := by
  rcases s.link_cases with ⟨hall, hmissing, -⟩ | ⟨front, name, back, hrow, -, hname, hmissing, -⟩
  · rw [Linked.settle_of_none hmissing]
    exact ⟨fun _ => hall, fun _ => ⟨_, rfl⟩⟩
  · rw [Linked.settle_of_missing hmissing]
    constructor
    · rintro ⟨t, ht⟩
      cases ht
    · intro hall
      obtain ⟨pc, hpc⟩ := hall name (hrow ▸ List.mem_append_right _ List.mem_cons_self)
      cases hname.symm.trans hpc

/-- Linking succeeds exactly if every label in the arguments is declared. Then each label has become
its address and nothing else has changed, the count that is reported is that of the labels, and
linking once more changes nothing. If it fails, the error names the first label of the row that is
not declared: the labels in front of it have become their addresses, and it and all that follows are
as they were. -/
theorem Script.link_exact (s : Script) :
    ((∃ t, s.link.settle.result = .ok t) ↔
        ∀ name, .label name ∈ s.leaves → ∃ pc, s.label? name = some pc) ∧
      (∀ t, s.link.settle.result = .ok t →
        s.link.value = t ∧ t.SameShape s ∧ t.leaves = s.leaves.map (Expr.settled s.labels) ∧
          s.link.settle.events =
            [.labelsResolved (s.leaves.countP Expr.isLabel) s.labels.size] ∧
          t.link = ⟨t, 0, none⟩) ∧
      ∀ e, s.link.settle.result = .error e →
        ∃ front name back, s.leaves = front ++ .label name :: back ∧
          (∀ n, .label n ∈ front → ∃ pc, s.label? n = some pc) ∧ s.label? name = none ∧
          e = .unknownLabel name ∧ s.link.value.SameShape s ∧
          s.link.value.leaves = front.map (Expr.settled s.labels) ++ .label name :: back := by
  have hshape := s.sameShape_link
  refine ⟨s.exists_settle_iff, fun t ht => ?_, fun e he => ?_⟩
  · have hall := s.exists_settle_iff.mp ⟨t, ht⟩
    rcases s.link_cases with ⟨-, hmissing, hcount, hleaves⟩ | ⟨front, name, back, -, -, -, hmissing, -⟩
    · rw [Linked.settle_of_none hmissing] at ht ⊢
      obtain rfl : s.link.value = t := Except.ok.inj ht
      refine ⟨rfl, hshape, hleaves, by rw [hcount, hshape.labels], ?_⟩
      refine Script.link_of_no_label (fun name hmem => ?_)
      rw [hleaves] at hmem
      exact Expr.settled_of_declared hall _ hmem name rfl
    · rw [Linked.settle_of_missing hmissing] at ht
      cases ht
  · rcases s.link_cases with ⟨-, hmissing, -⟩ | ⟨front, name, back, hrow, hfront, hname, hmissing, hleaves⟩
    · rw [Linked.settle_of_none hmissing] at he
      cases he
    · rw [Linked.settle_of_missing hmissing] at he
      cases he
      exact ⟨front, name, back, hrow, hfront, hname, rfl, hshape, hleaves⟩

/-- A label that is missing in the midst of a tree, between two uses of one that is declared. -/
theorem Script.link_exact_midst :
    let script : Script :=
      ⟨#[⟨⟨3⟩, [.binary .mul (.unary .minus (.label "a")) (.binary .add (.label "b") (.label "a"))]⟩,
          ⟨⟨3⟩, [.label "a"]⟩], (∅ : NameTable Address).insert "a" 1, ∅, ∅⟩
    script.link.settle.result = .error (.unknownLabel "b") ∧
      script.link.value.leaves = [.address 1, .label "b", .label "a", .label "a"] ∧
      script.link.value.SameShape script ∧
      ¬∃ t, script.link.settle.result = .ok t := by
  intro script
  have herror : script.link.settle.result = .error (.unknownLabel "b") := rfl
  obtain ⟨hiff, -, hfails⟩ := script.link_exact
  obtain ⟨-, -, -, -, -, -, -, hshape, -⟩ := hfails _ herror
  refine ⟨herror, rfl, hshape, fun hlinked => ?_⟩
  obtain ⟨pc, hpc⟩ := hiff.mp hlinked "b" (List.mem_cons_of_mem _ List.mem_cons_self)
  cases hpc

end CommandScript
