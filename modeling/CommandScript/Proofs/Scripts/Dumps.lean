import CommandScript.Proofs.Decimal.Writing
import CommandScript.Proofs.Json.Printing
import CommandScript.Proofs.Scripts.Leaves
import CommandScript.Script.Dump
import Mathlib
/-! # Reading dumps

A dump tells all about a script whose floats are finite: there is a reader that gets the script back
from the text. So two such scripts never have the same dump.
-/
namespace CommandScript

section Reader

def Json.nat? (lexeme : String) : Option Nat := Decimal.readNat? 10 lexeme.toList

def UnaryOp.ofTag? (raw : String) : Option UnaryOp := do
  let tag ← Json.unescape? raw
  [UnaryOp.plus, .minus].find? (fun op => op.tag == tag)

def BinaryOp.ofTag? (raw : String) : Option BinaryOp := do
  let tag ← Json.unescape? raw
  [BinaryOp.add, .sub, .mul, .div, .mod].find? (fun op => op.tag == tag)

/-- A leaf of the kind that is written as a number. -/
def Expr.ofTaggedNumber? (kind lexeme : String) : Option Expr :=
  if kind = "Integer" then
    (Decimal.readInt? 10 lexeme.toList).map (fun n => .integer (Int32.ofInt n))
  else if kind = "Float" then (Decimal.readDouble? lexeme.toList).map .float
  else if kind = "Identifier" then (Json.nat? lexeme).map (fun n => .identifier ⟨n.toUInt32⟩)
  else if kind = "Variable" then (Json.nat? lexeme).map (fun n => .var ⟨n.toUInt32⟩)
  else if kind = "Flag" then (Json.nat? lexeme).map (fun n => .flag ⟨n.toUInt32⟩)
  else if kind = "Address" then (Json.nat? lexeme).map .address
  else none

/-- A leaf of the kind that is written as a string. -/
def Expr.ofTaggedText? (kind raw : String) : Option Expr := do
  let text ← Json.unescape? raw
  if kind = "String" then some (.string text)
  else if kind = "Label" then some (.label text)
  else none

def Expr.ofJson? : Json → Option Expr
  | .object [(name, .number lexeme)] => do ofTaggedNumber? (← Json.unescape? name) lexeme
  | .object [(name, .string raw)] => do ofTaggedText? (← Json.unescape? name) raw
  | .object [(_, .array [.string op, e])] => do
    return .unary (← UnaryOp.ofTag? op) (← ofJson? e)
  | .object [(_, .array [.string op, l, r])] => do
    return .binary (← BinaryOp.ofTag? op) (← ofJson? l) (← ofJson? r)
  | _ => none

def Command.ofJson? : Json → Option Command
  | .object [(_, .number type), (_, .array args)] => do
    return ⟨⟨(← Json.nat? type).toUInt32⟩, ← args.mapM Expr.ofJson?⟩
  | _ => none

/-- Members under the names that they denote, each read in the same way. -/
def Json.entries? {α : Type} (read : Json → Option α) (members : List (String × Json)) :
    Option (List (String × α)) :=
  members.mapM (fun m => do return (← Json.unescape? m.1, ← read m.2))

def Json.address? : Json → Option Address
  | .number lexeme => Json.nat? lexeme
  | _ => none

mutual

def Script.ofJson? : Json → Option Script
  | .object [(_, .array commands), (_, .object labels), (_, .object macros),
      (_, .object constants)] => do
    let commands ← commands.mapM Command.ofJson?
    let labels ← Json.entries? Json.address? labels
    let macros ← macrosOfJson? macros
    let constants ← Json.entries? Expr.ofJson? constants
    return ⟨commands.toArray, ⟨labels⟩, ⟨macros⟩, ⟨constants⟩⟩
  | _ => none

def macrosOfJson? : List (String × Json) → Option (List (String × Script))
  | [] => some []
  | (name, body) :: rest => do
    return (← Json.unescape? name, ← Script.ofJson? body) :: (← macrosOfJson? rest)

end

def Script.ofDump? (text : String) : Option Script := (Json.parse? text).bind Script.ofJson?

end Reader

section Finiteness

/-- Every float of the tree is a number. -/
def Expr.IsFinite (e : Expr) : Prop := ∀ x, .float x ∈ e.leaves → x.isFinite = true

/-- Every float of the script, and of the macros inside it, is a number. -/
inductive Script.IsFinite : Script → Prop
  | intro {s : Script} (hcommands : ∀ c ∈ s.commands.toList, ∀ e ∈ c.args, e.IsFinite)
    (hmacros : ∀ m ∈ s.macros.entries, IsFinite m.2)
    (hconstants : ∀ e ∈ s.constants.entries, e.2.IsFinite) : IsFinite s

theorem Expr.isFinite_float {x : Float} (h : x.isFinite = true) : (Expr.float x).IsFinite := by
  simpa [Expr.IsFinite, Expr.leaves] using h

end Finiteness

section Expressions
variable {e : Expr}

theorem Json.nat?_toString (n : Nat) : Json.nat? (toString n) = some n := by
  rw [Json.nat?, Nat.toString_eq_repr, Nat.toList_repr, Decimal.readNat?_toDigits]

theorem UnaryOp.ofTag?_tag (op : UnaryOp) : UnaryOp.ofTag? (Json.escape op.tag) = some op := by
  rw [ofTag?, Json.unescape?_escape]
  cases op <;> rfl

theorem BinaryOp.ofTag?_tag (op : BinaryOp) : BinaryOp.ofTag? (Json.escape op.tag) = some op := by
  rw [ofTag?, Json.unescape?_escape]
  cases op <;> rfl

theorem Expr.ofJson?_number (kind lexeme : String) :
    Expr.ofJson? (.record [(kind, .number lexeme)]) = Expr.ofTaggedNumber? kind lexeme := by
  simp [Json.record, Expr.ofJson?, Json.unescape?_escape]

theorem Expr.ofJson?_text (kind text : String) :
    Expr.ofJson? (.record [(kind, .text text)]) =
      if kind = "String" then some (.string text)
      else if kind = "Label" then some (.label text) else none := by
  simp [Json.record, Json.text, Expr.ofJson?, Expr.ofTaggedText?, Json.unescape?_escape]

theorem Expr.ofJson?_toJson (h : e.IsFinite) : Expr.ofJson? e.toJson = some e := by
  induction e with
  | integer n =>
    rw [Expr.toJson, Json.int, ofJson?_number]
    simp only [ofTaggedNumber?, ↓reduceIte, Decimal.readInt?_toString, Option.map_some,
      Int32.ofInt_toInt]
  | float x =>
    have hx : x.isFinite = true := h x List.mem_cons_self
    rw [Expr.toJson, ofJson?_number]
    simp only [ofTaggedNumber?, String.reduceEq, ↓reduceIte, Decimal.readDouble?_write _ hx,
      Option.map_some]
  | string s => simp [Expr.toJson, ofJson?_text]
  | label name => simp [Expr.toJson, ofJson?_text]
  | unary op e ih =>
    simp [Expr.toJson, Json.record, Json.text, Expr.ofJson?, UnaryOp.ofTag?_tag, ih h]
  | binary op l r ihl ihr =>
    have hl : l.IsFinite := fun x hx => h x (List.mem_append_left _ hx)
    have hr : r.IsFinite := fun x hx => h x (List.mem_append_right _ hx)
    simp [Expr.toJson, Json.record, Json.text, Expr.ofJson?, BinaryOp.ofTag?_tag, ihl hl, ihr hr]
  | _ =>
    rw [Expr.toJson, Json.nat, ofJson?_number]
    simp only [ofTaggedNumber?, String.reduceEq, ↓reduceIte, Json.nat?_toString, Option.map_some,
      Nat.toUInt32_eq, UInt32.ofNat_toNat]

theorem Expr.strict_toJson (h : e.IsFinite) : e.toJson.Strict := by
  have hrecord {kind : String} {j : Json} (hj : j.Strict) : (Json.record [(kind, j)]).Strict :=
    Json.strict_record (by simpa using hj)
  induction e with
  | integer n => exact hrecord (Json.strict_int n.toInt)
  | float x => exact hrecord (.number (Decimal.numberText_write _ (h x List.mem_cons_self)))
  | string s => exact hrecord (Json.strict_text s)
  | label name => exact hrecord (Json.strict_text name)
  | unary op e ih =>
    refine hrecord (.array ?_)
    simpa using ⟨Json.strict_text op.tag, ih h⟩
  | binary op l r ihl ihr =>
    refine hrecord (.array ?_)
    simpa using ⟨Json.strict_text op.tag, ihl (fun x hx => h x (List.mem_append_left _ hx)),
      ihr (fun x hx => h x (List.mem_append_right _ hx))⟩
  | _ => exact hrecord (Json.strict_nat _)

end Expressions

section Scripts

/-- A list is read back item by item. -/
theorem mapM_map_of_read {α β : Type} {write : α → β} {read : β → Option α} {as : List α}
    (h : ∀ a ∈ as, read (write a) = some a) : (as.map write).mapM read = some as := by
  induction as with
  | nil => rfl
  | cons a as ih =>
    obtain ⟨ha, has⟩ := List.forall_mem_cons.mp h
    rw [List.map_cons, List.mapM_cons, ha, ih has]
    rfl

theorem Command.ofJson?_toJson {c : Command} (h : ∀ e ∈ c.args, e.IsFinite) :
    Command.ofJson? c.toJson = some c := by
  have hargs : (c.args.map Expr.toJson).mapM Expr.ofJson? = some c.args :=
    mapM_map_of_read (fun e he => Expr.ofJson?_toJson (h e he))
  simp [Command.toJson, Json.record, Json.nat, Command.ofJson?, -Nat.toString_eq_repr,
    Json.nat?_toString, hargs, CommandType.index]

theorem Command.strict_toJson {c : Command} (h : ∀ e ∈ c.args, e.IsFinite) : c.toJson.Strict := by
  have hargs : (Json.array (c.args.map Expr.toJson)).Strict := by
    refine .array (fun j hj => ?_)
    obtain ⟨e, he, rfl⟩ := List.mem_map.mp hj
    exact Expr.strict_toJson (h e he)
  refine Json.strict_record ?_
  simpa using ⟨Json.strict_nat c.type.index, hargs⟩

/-- The members of a written table. -/
def Json.tableMembers {α : Type} (write : α → Json) (entries : List (String × α)) :
    List (String × Json) :=
  (entries.map (fun e => (e.1, write e.2))).map (fun m => (Json.escape m.1, m.2))

theorem Json.entries?_tableMembers {α : Type} {write : α → Json} {read : Json → Option α}
    {entries : List (String × α)} (h : ∀ e ∈ entries, read (write e.2) = some e.2) :
    Json.entries? read (Json.tableMembers write entries) = some entries := by
  rw [tableMembers, List.map_map]
  refine mapM_map_of_read (fun e he => ?_)
  simp [Json.unescape?_escape, h e he]

theorem macrosOfJson?_macrosToJson {macros : List (String × Script)}
    (h : ∀ m ∈ macros, Script.ofJson? m.2.toJson = some m.2) :
    macrosOfJson? ((macrosToJson macros).map (fun m => (Json.escape m.1, m.2))) = some macros := by
  induction macros with
  | nil => simp [macrosToJson, macrosOfJson?]
  | cons m macros ih =>
    obtain ⟨hm, hmacros⟩ := List.forall_mem_cons.mp h
    simp [macrosToJson, macrosOfJson?, Json.unescape?_escape, hm, ih hmacros]

theorem Script.ofJson?_toJson {s : Script} (h : s.IsFinite) : Script.ofJson? s.toJson = some s := by
  induction h with
  | @intro s hcommands hmacros hconstants ih =>
    obtain ⟨commands, labels, ⟨macros⟩, constants⟩ := s
    have hcommands' : (commands.toList.map Command.toJson).mapM Command.ofJson? =
        some commands.toList :=
      mapM_map_of_read (fun c hc => Command.ofJson?_toJson (hcommands c hc))
    have hlabels : Json.entries? Json.address? (Json.tableMembers Json.nat labels.entries) =
        some labels.entries :=
      Json.entries?_tableMembers (fun e _ => Json.nat?_toString e.2)
    have hmacros' := macrosOfJson?_macrosToJson ih
    have hconstants' : Json.entries? Expr.ofJson? (Json.tableMembers Expr.toJson constants.entries) =
        some constants.entries :=
      Json.entries?_tableMembers (fun e he => Expr.ofJson?_toJson (hconstants e he))
    unfold Json.tableMembers at hlabels hconstants'
    rw [Script.toJson]
    simp only [Json.record, List.map_cons, List.map_nil, Script.ofJson?, hcommands', hlabels,
      hmacros', hconstants', Option.bind_eq_bind, Option.bind_some]
    rfl

theorem mem_macrosToJson {macros : List (String × Script)} {m : String × Json}
    (h : m ∈ macrosToJson macros) : ∃ body ∈ macros, m.2 = body.2.toJson := by
  induction macros with
  | nil => simp [macrosToJson] at h
  | cons body macros ih =>
    rw [macrosToJson] at h
    rcases List.mem_cons.mp h with rfl | h
    · exact ⟨body, List.mem_cons_self, rfl⟩
    · obtain ⟨body', hbody', heq⟩ := ih h
      exact ⟨body', List.mem_cons_of_mem _ hbody', heq⟩

theorem Script.strict_toJson {s : Script} (h : s.IsFinite) : s.toJson.Strict := by
  induction h with
  | @intro s hcommands hmacros hconstants ih =>
    obtain ⟨commands, labels, ⟨macros⟩, constants⟩ := s
    have hcommands' : (Json.array (commands.toList.map Command.toJson)).Strict := by
      refine .array (fun j hj => ?_)
      obtain ⟨c, hc, rfl⟩ := List.mem_map.mp hj
      exact Command.strict_toJson (hcommands c hc)
    have hlabels : (Json.record (labels.entries.map (fun e => (e.1, .nat e.2)))).Strict := by
      refine Json.strict_record (fun m hm => ?_)
      obtain ⟨e, -, rfl⟩ := List.mem_map.mp hm
      exact Json.strict_nat e.2
    have hmacros' : (Json.record (macrosToJson macros)).Strict := by
      refine Json.strict_record (fun m hm => ?_)
      obtain ⟨body, hbody, heq⟩ := mem_macrosToJson hm
      rw [heq]
      exact ih body hbody
    have hconstants' : (Json.record (constants.entries.map (fun e => (e.1, e.2.toJson)))).Strict := by
      refine Json.strict_record (fun m hm => ?_)
      obtain ⟨e, he, rfl⟩ := List.mem_map.mp hm
      exact Expr.strict_toJson (hconstants e he)
    rw [Script.toJson]
    refine Json.strict_record ?_
    simpa using ⟨hcommands', hlabels, hmacros', hconstants'⟩

theorem Script.ofDump?_of_isFinite {s : Script} (h : s.IsFinite) :
    Script.ofDump? s.dump = some s := by
  rw [ofDump?, dump, (strict_toJson h).parse?_pretty, Option.bind_some, ofJson?_toJson h]

/-- The dump of a script whose floats are numbers tells the script. -/
theorem Script.ofDump?_dump {s : Script} (h : s.IsFinite) :
    Script.ofDump? s.dump = some s ∧ ∀ t : Script, t.IsFinite → s.dump = t.dump → s = t := by
  refine ⟨ofDump?_of_isFinite h, fun t ht hdump => ?_⟩
  have hread := ofDump?_of_isFinite ht
  rw [← hdump, ofDump?_of_isFinite h] at hread
  exact Option.some.inj hread

/-- A macro inside a macro, names with quotes and control characters, and a negative zero. -/
theorem Script.ofDump?_dump_nested :
    let inner : Script := ⟨#[⟨⟨1⟩, [.float 0.1, .float (-0.0)]⟩], ∅, ∅, ∅⟩
    let outer : Script := ⟨#[], ∅, ⟨[("in\"ner", inner)]⟩, ⟨[("x\\", .string "é\x01\n")]⟩⟩
    let s : Script :=
      ⟨#[⟨⟨14⟩, [.binary .mod (.integer (-3)) (.unary .minus (.label "end"))]⟩], ⟨[("end", 1)]⟩,
        ⟨[("outer", outer)]⟩, ⟨[("pi", .float 3.14159)]⟩⟩
    s.IsFinite ∧ Script.ofDump? s.dump = some s ∧
      ∀ t : Script, t.IsFinite → s.dump = t.dump → s = t := by
  intro inner outer s
  have hinner : inner.IsFinite := by
    refine .intro ?_ (List.forall_mem_nil _) (List.forall_mem_nil _)
    have htenth : (Expr.float 0.1).IsFinite := Expr.isFinite_float (by decide)
    have hzero : (Expr.float (-0.0)).IsFinite := Expr.isFinite_float (by decide)
    simpa [inner] using ⟨htenth, hzero⟩
  have houter : outer.IsFinite := by
    refine .intro (List.forall_mem_nil _) (by simpa [outer] using hinner) ?_
    simp [outer, Expr.IsFinite, Expr.leaves]
  have hs : s.IsFinite := by
    have hpi : (Expr.float 3.14159).IsFinite := Expr.isFinite_float (by decide)
    refine .intro ?_ (by simpa [s] using houter) (by simpa [s] using hpi)
    simp [s, Expr.IsFinite, Expr.leaves]
  exact ⟨hs, Script.ofDump?_dump hs⟩

end Scripts

end CommandScript
