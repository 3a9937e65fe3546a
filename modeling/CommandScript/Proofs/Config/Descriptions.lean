import CommandScript.HostConfig
import CommandScript.Proofs.Config.Tables
import CommandScript.Proofs.Json.Acceptance
import CommandScript.Proofs.Json.Printing
import CommandScript.Proofs.Outcome
import Mathlib
/-! # Descriptions of hosts

An object describes a host if its members hold the parts of the host, in any order and under any
spelling of their names. Parts that have their default may be left out. Loading a text of such an
object gives the host. A part that is unknown or that comes twice makes the description unfit, and
so does anything but a handle where a handle should be. Whatever is loaded, its tables are in order.
-/
namespace CommandScript.HostConfig
open Json

section Descriptions

/-- A number that is written with digits alone. -/
def IsInteger (j : Json) (n : Nat) : Prop :=
  ∃ ds : List Char, (∀ d ∈ ds, d.isDigit = true) ∧ j = .number (String.ofList ds) ∧
    Nat.ofDigitChars 10 ds 0 = n

/-- Members, and the same members under the names that they denote. -/
def Named : List (String × Json) → List (String × Json) → Prop :=
  List.Forall₂ (fun m p => Denotes m.1.toList p.1.toList ∧ m.2 = p.2)

/-- A part is there, or it has its default and is left out. -/
def Part (parts : List (String × Json)) (name : String) (Holds : Json → Prop) (default : Prop) :
    Prop :=
  (∃ j, (name, j) ∈ parts ∧ Holds j) ∨ (default ∧ ∀ j, (name, j) ∉ parts)

/-- An object with a handle for each name; of several members of one name the last counts. -/
def IsTable {α : Type} (ofHandle : UInt32 → α) (t : NameTable α) (j : Json) : Prop :=
  ∃ ms entries, j = .object ms ∧
    List.Forall₂ (fun m e => Denotes m.1.toList e.1.toList ∧
      ∃ handle : UInt32, IsInteger m.2 handle.toNat ∧ ofHandle handle = e.2) ms entries ∧
    ∀ name, t.get? name = entries.reverse.lookup name

def IsLookahead (l : LookaheadConfig) (j : Json) : Prop :=
  ∃ ms parts, j = .object ms ∧ Named ms parts ∧ (parts.map (·.1)).Nodup ∧
    (∀ p ∈ parts, p.1 ∈ ["batch", "capacity"]) ∧
    Part parts "batch" (IsInteger · l.batch) (l.batch = ({} : LookaheadConfig).batch) ∧
    Part parts "capacity" (IsInteger · l.capacity) (l.capacity = ({} : LookaheadConfig).capacity)

/-- The parts of a host, each at most once and in any order. -/
structure Describes (parts : List (String × Json)) (c : HostConfig) : Prop where
  once : (parts.map (·.1)).Nodup
  known : ∀ p ∈ parts, p.1 ∈ ["commands", "identifiers", "variables", "flags", "lookahead"]
  commands : Part parts "commands" (IsTable CommandType.mk c.own.commands) (c.own.commands = ∅)
  identifiers :
    Part parts "identifiers" (IsTable Identifier.mk c.own.identifiers) (c.own.identifiers = ∅)
  vars : Part parts "variables" (IsTable Variable.mk c.own.vars) (c.own.vars = ∅)
  flags : Part parts "flags" (IsTable Flag.mk c.own.flags) (c.own.flags = ∅)
  lookahead : Part parts "lookahead" (IsLookahead c.lookahead) (c.lookahead = {})

/-- The tables keep the order of their names, and the sizes have 64 bits. -/
structure Regular (c : HostConfig) : Prop where
  commands : c.own.commands.Ordered
  identifiers : c.own.identifiers.Ordered
  vars : c.own.vars.Ordered
  flags : c.own.flags.Ordered
  batch : c.lookahead.batch < 2 ^ 64
  capacity : c.lookahead.capacity < 2 ^ 64

/-- A description that was spoiled: by a part whose name is none of the known ones, by a part of a
name that is there already, or by something that is no handle in the place of one. -/
inductive Spoiled (ms parts : List (String × Json)) : List (String × Json) → Prop
  | unknown {ms₁ ms₂ : List (String × Json)} {raw : String} {j : Json} (hsplit : ms = ms₁ ++ ms₂)
    (hnew : ∀ name ∈ ["commands", "identifiers", "variables", "flags", "lookahead"],
      ¬Denotes raw.toList name.toList) : Spoiled ms parts (ms₁ ++ (raw, j) :: ms₂)
  | repeated {ms₁ ms₂ : List (String × Json)} {raw name : String} {j : Json}
    (hsplit : ms = ms₁ ++ ms₂) (hname : Denotes raw.toList name.toList)
    (hold : name ∈ parts.map (·.1)) : Spoiled ms parts (ms₁ ++ (raw, j) :: ms₂)
  | replaced {ms₁ ms₂ ts₁ ts₂ : List (String × Json)} {raw table key : String} {handle j : Json}
    (hsplit : ms = ms₁ ++ (raw, .object (ts₁ ++ (key, handle) :: ts₂)) :: ms₂)
    (hname : Denotes raw.toList table.toList)
    (htable : table ∈ ["commands", "identifiers", "variables", "flags"])
    (hj : ∀ n < 2 ^ 32, ¬IsInteger j n) :
    Spoiled ms parts (ms₁ ++ (raw, .object (ts₁ ++ (key, j) :: ts₂)) :: ms₂)

end Descriptions

section Numbers
variable {j : Json} {n limit : Nat}

theorem nat?_eq_some_iff : nat? limit j = some n ↔ IsInteger j n ∧ n < limit := by
  constructor
  · intro h
    cases j with
    | number lexeme =>
      simp only [nat?] at h
      split at h
      · rename_i hdigits
        split at h
        · rename_i hlt
          cases h
          refine ⟨⟨lexeme.toList, List.all_eq_true.mp hdigits, ?_, ?_⟩, hlt⟩
          · rw [String.ofList_toList]
          · simp only [Nat.ofDigitChars_eq_foldl, Nat.mul_comm]
        · cases h
      · cases h
    | _ => cases h
  · rintro ⟨⟨ds, hdigits, rfl, rfl⟩, hlt⟩
    simp only [Nat.ofDigitChars_eq_foldl, Nat.mul_comm 10] at hlt ⊢
    simp only [nat?, String.toList_ofList, List.all_eq_true.mpr hdigits, hlt, ↓reduceIte]

theorem isInteger_nat (n : Nat) : IsInteger (nat n) n :=
  ⟨Nat.toDigits 10 n, fun _ hd => Decimal.isDigit_of_mem_toDigits hd, rfl,
    Nat.ofDigitChars_ten_toDigits⟩

end Numbers

section Members
variable {ms parts : List (String × Json)}

theorem mapM_eq_some_iff {α β : Type} {f : α → Option β} {as : List α} {bs : List β} :
    as.mapM f = some bs ↔ List.Forall₂ (fun a b => f a = some b) as bs := by
  induction as generalizing bs with
  | nil =>
    rw [List.forall₂_nil_left_iff, List.mapM_nil, Option.pure_def, Option.some.injEq, eq_comm]
  | cons a as ih =>
    rw [List.forall₂_cons_left_iff, List.mapM_cons]
    constructor
    · intro h
      obtain ⟨b, hb, h⟩ := Option.bind_eq_some_iff.mp h
      obtain ⟨bs', hbs, hcons⟩ := Option.bind_eq_some_iff.mp h
      cases hcons
      exact ⟨b, bs', hb, ih.mp hbs, rfl⟩
    · rintro ⟨b, bs', hb, hbs, rfl⟩
      rw [hb, ih.mpr hbs]
      rfl

theorem named?_eq_some_iff : named? ms = some parts ↔
    List.Forall₂ (fun m p => unescape? m.1 = some p.1 ∧ m.2 = p.2) ms parts := by
  have hsame (m p : String × Json) : (unescape? m.1).map (·, m.2) = some p ↔
      unescape? m.1 = some p.1 ∧ m.2 = p.2 := by
    rw [Option.map_eq_some_iff]
    constructor
    · rintro ⟨name, hname, rfl⟩
      exact ⟨hname, rfl⟩
    · rintro ⟨hname, hvalue⟩
      exact ⟨p.1, hname, by rw [hvalue]⟩
  rw [named?, mapM_eq_some_iff]
  simp only [hsame]

theorem named?_of_named (h : Named ms parts) : named? ms = some parts := by
  refine named?_eq_some_iff.mpr (List.Forall₂.imp ?_ h)
  exact fun m p hp => ⟨unescape?_of_denotes hp.1, hp.2⟩

theorem exists_of_mem_left {α β : Type} {R : α → β → Prop} {as : List α} {bs : List β}
    (h : List.Forall₂ R as bs) {a : α} (ha : a ∈ as) : ∃ b ∈ bs, R a b := by
  induction h with
  | nil => cases ha
  | cons hab _ ih =>
    rcases List.mem_cons.mp ha with rfl | ha
    · exact ⟨_, List.mem_cons_self, hab⟩
    · obtain ⟨b, hb, hab⟩ := ih ha
      exact ⟨b, List.mem_cons_of_mem _ hb, hab⟩

theorem exists_part_of_mem (h : named? ms = some parts) {raw : String} {j : Json}
    (hm : (raw, j) ∈ ms) : ∃ name, unescape? raw = some name ∧ (name, j) ∈ parts := by
  obtain ⟨⟨name, j⟩, hp, hname, rfl⟩ := exists_of_mem_left (named?_eq_some_iff.mp h) hm
  exact ⟨name, hname, hp⟩

/-- How often a name comes can be told from the members. -/
theorem countP_named? (h : named? ms = some parts) (name : String) :
    parts.countP (·.1 == name) = ms.countP (fun m => unescape? m.1 == some name) := by
  have hforall := named?_eq_some_iff.mp h
  clear h
  induction hforall with
  | nil => rfl
  | @cons m p ms parts hp _ ih =>
    rw [List.countP_cons, List.countP_cons, ih, hp.1]
    rfl

theorem countP_le_one (h : (parts.map (·.1)).Nodup) (name : String) :
    parts.countP (·.1 == name) ≤ 1 := by
  have hcount := List.nodup_iff_count_le_one.mp h name
  rwa [List.count, List.countP_map] at hcount

theorem lookup_of_mem {name : String} {j : Json} (hone : parts.countP (·.1 == name) ≤ 1)
    (h : (name, j) ∈ parts) : parts.lookup name = some j := by
  induction parts with
  | nil => cases h
  | cons p parts ih =>
    rw [List.lookup_cons]
    rw [List.countP_cons] at hone
    rcases List.mem_cons.mp h with rfl | h
    · rw [beq_self_eq_true]
    · have hpos : 0 < parts.countP (·.1 == name) :=
        List.countP_pos_iff.mpr ⟨_, h, beq_self_eq_true name⟩
      have hne : p.1 ≠ name := by
        intro heq
        rw [if_pos (beq_iff_eq.mpr heq)] at hone
        omega
      rw [beq_false_of_ne hne.symm]
      exact ih (by omega) h

theorem part?_of_part {α : Type} {read : Json → Option α} {default a : α} {name : String}
    {Holds : Json → Prop} {isDefault : Prop} (hone : parts.countP (·.1 == name) ≤ 1)
    (h : Part parts name Holds isDefault) (hread : ∀ j, Holds j → read j = some a)
    (hdefault : isDefault → a = default) : part? read default parts name = some a := by
  unfold part?
  rcases h with ⟨j, hmem, hj⟩ | ⟨hdef, habsent⟩
  · rw [lookup_of_mem hone hmem]
    exact hread j hj
  · have hnone : parts.lookup name = none := by
      refine List.lookup_eq_none_iff.mpr (fun p hp => bne_iff_ne.mpr ?_)
      rintro rfl
      exact habsent p.2 hp
    rw [hnone, hdefault hdef]

end Members

section Reading

theorem table?_of_isTable {α : Type} {ofHandle : UInt32 → α} {t : NameTable α} {j : Json}
    (ht : t.Ordered) (h : IsTable ofHandle t j) : table? ofHandle j = some t := by
  obtain ⟨ms, entries, rfl, hforall, hget⟩ := h
  have hentries : ∃ parts, named? ms = some parts ∧ parts.mapM (fun m =>
      (nat? handleLimit m.2).map (fun n => (m.1, ofHandle n.toUInt32))) = some entries := by
    simp only [named?_eq_some_iff, mapM_eq_some_iff]
    clear hget
    induction hforall with
    | nil => exact ⟨[], .nil, .nil⟩
    | @cons m e ms entries hm _ ih =>
      obtain ⟨hname, handle, hvalue, hhandle⟩ := hm
      obtain ⟨parts, hparts, hmap⟩ := ih
      have hnat : nat? handleLimit m.2 = some handle.toNat :=
        nat?_eq_some_iff.mpr ⟨hvalue, handle.toNat_lt⟩
      refine ⟨(e.1, m.2) :: parts, .cons ⟨unescape?_of_denotes hname, rfl⟩ hparts, .cons ?_ hmap⟩
      simp [hnat, hhandle]
  obtain ⟨parts, hparts, hmap⟩ := hentries
  have htable : NameTable.ofList entries = t := by
    refine (NameTable.ordered_ofList entries).ext ht (fun name => ?_)
    rw [NameTable.get?_ofList, hget]
  simp only [table?, hparts, hmap, htable, Option.bind_eq_bind, Option.bind_some, Option.pure_def]

theorem atMostOnce_of_nodup {parts : List (String × Json)} (h : (parts.map (·.1)).Nodup)
    (names : List String) : atMostOnce names parts = true := by
  refine List.all_eq_true.mpr (fun name _ => ?_)
  exact decide_eq_true (countP_le_one h name)

theorem lookahead?_of_isLookahead {l : LookaheadConfig} {j : Json} (hbatch : l.batch < 2 ^ 64)
    (hcapacity : l.capacity < 2 ^ 64) (h : IsLookahead l j) : lookahead? j = some l := by
  obtain ⟨ms, parts, rfl, hnamed, hnodup, -, hb, hc⟩ := h
  have hone := countP_le_one hnodup
  have hnat {n : Nat} (hn : n < 2 ^ 64) (j : Json) (hj : IsInteger j n) :
      nat? sizeLimit j = some n := nat?_eq_some_iff.mpr ⟨hj, hn⟩
  have hb' := part?_of_part (hone _) hb (hnat hbatch) id
  have hc' := part?_of_part (hone _) hc (hnat hcapacity) id
  simp only [lookahead?, named?_of_named hnamed, atMostOnce_of_nodup hnodup, lookaheadOf?, hb', hc',
    Option.bind_eq_bind, Option.bind_some, Option.pure_def, ↓reduceIte]

theorem ofJson?_of_describes {ms parts : List (String × Json)} {c : HostConfig} (hc : c.Regular)
    (hnamed : Named ms parts) (h : Describes parts c) : ofJson? (.object ms) = some c := by
  have hone := countP_le_one h.once
  have hknown : parts.all (fun p => names.contains p.1) = true :=
    List.all_eq_true.mpr (fun p hp => List.contains_iff_mem.mpr (h.known p hp))
  have hcommands := part?_of_part (hone _) h.commands (fun _ => table?_of_isTable hc.commands) id
  have hidentifiers :=
    part?_of_part (hone _) h.identifiers (fun _ => table?_of_isTable hc.identifiers) id
  have hvars := part?_of_part (hone _) h.vars (fun _ => table?_of_isTable hc.vars) id
  have hflags := part?_of_part (hone _) h.flags (fun _ => table?_of_isTable hc.flags) id
  have hlookahead := part?_of_part (hone _) h.lookahead
    (fun _ => lookahead?_of_isLookahead hc.batch hc.capacity) id
  simp only [ofJson?, named?_of_named hnamed, hknown, atMostOnce_of_nodup h.once, ofParts?,
    hcommands, hidentifiers, hvars, hflags, hlookahead, Option.bind_eq_bind, Option.bind_some,
    Option.pure_def, Bool.and_self, ↓reduceIte]

end Reading

section Refusing
variable {ms ms' parts : List (String × Json)} {c : HostConfig}

theorem exists_of_ofJson? (h : ofJson? (.object ms) = some c) :
    ∃ parts, named? ms = some parts ∧ (∀ p ∈ parts, p.1 ∈ names) ∧
      (∀ name ∈ names, parts.countP (·.1 == name) ≤ 1) ∧ ofParts? parts = some c := by
  obtain ⟨parts, hparts, h⟩ := Option.bind_eq_some_iff.mp h
  split at h
  · rename_i hvalid
    obtain ⟨hknown, honce⟩ := Bool.and_eq_true_iff.mp hvalid
    refine ⟨parts, hparts, fun p hp => ?_, fun name hname => ?_, h⟩
    · exact List.contains_iff_mem.mp (List.all_eq_true.mp hknown p hp)
    · exact of_decide_eq_true (List.all_eq_true.mp honce name hname)
  · cases h

/-- Each member of a table has a handle. -/
theorem exists_handle {α : Type} {ofHandle : UInt32 → α} {t : NameTable α}
    {ts : List (String × Json)} (h : table? ofHandle (.object ts) = some t) {key : String}
    {j : Json} (hm : (key, j) ∈ ts) : ∃ n < 2 ^ 32, IsInteger j n := by
  obtain ⟨parts, hparts, h⟩ := Option.bind_eq_some_iff.mp h
  obtain ⟨entries, hentries, -⟩ := Option.bind_eq_some_iff.mp h
  obtain ⟨name, -, hmem⟩ := exists_part_of_mem hparts hm
  obtain ⟨e, -, he⟩ := exists_of_mem_left (mapM_eq_some_iff.mp hentries) hmem
  obtain ⟨n, hn, -⟩ := Option.map_eq_some_iff.mp he
  obtain ⟨hinteger, hlt⟩ := nat?_eq_some_iff.mp hn
  exact ⟨n, hlt, hinteger⟩

theorem exists_handle_of_ofParts? {table : String} {ts : List (String × Json)}
    (h : ofParts? parts = some c)
    (htable : table ∈ ["commands", "identifiers", "variables", "flags"])
    (hlookup : parts.lookup table = some (.object ts)) {key : String} {j : Json}
    (hm : (key, j) ∈ ts) : ∃ n < 2 ^ 32, IsInteger j n := by
  have hread {α : Type} {ofHandle : UInt32 → α} {t : NameTable α}
      (hpart : part? (table? ofHandle) ∅ parts table = some t) : ∃ n < 2 ^ 32, IsInteger j n := by
    rw [part?, hlookup] at hpart
    exact exists_handle hpart hm
  obtain ⟨_, hcommands, h⟩ := Option.bind_eq_some_iff.mp h
  obtain ⟨_, hidentifiers, h⟩ := Option.bind_eq_some_iff.mp h
  obtain ⟨_, hvars, h⟩ := Option.bind_eq_some_iff.mp h
  obtain ⟨_, hflags, -⟩ := Option.bind_eq_some_iff.mp h
  fin_cases htable
  · exact hread hcommands
  · exact hread hidentifiers
  · exact hread hvars
  · exact hread hflags

/-- A part under a name that was there already comes twice. -/
theorem two_le_countP {ms₁ ms₂ : List (String × Json)} {raw name : String} {j : Json}
    (hnamed : Named (ms₁ ++ ms₂) parts) (hname : unescape? raw = some name)
    (hold : name ∈ parts.map (·.1)) :
    2 ≤ (ms₁ ++ (raw, j) :: ms₂).countP (fun m => unescape? m.1 == some name) := by
  obtain ⟨p, hp, rfl⟩ := List.mem_map.mp hold
  have hpos : 0 < parts.countP (·.1 == p.1) :=
    List.countP_pos_iff.mpr ⟨p, hp, beq_self_eq_true p.1⟩
  rw [countP_named? (named?_of_named hnamed), List.countP_append] at hpos
  rw [List.countP_append, List.countP_cons, hname, if_pos (beq_self_eq_true _)]
  omega

theorem ofJson?_of_spoiled (hnamed : Named ms parts) (h : Spoiled ms parts ms')
    (hraw : ∀ m ∈ ms', RawString m.1.toList) : ofJson? (.object ms') = none := by
  refine Option.eq_none_iff_forall_ne_some.mpr (fun c hc => ?_)
  obtain ⟨parts', hparts, hknown, honce, hof⟩ := exists_of_ofJson? hc
  cases h with
  | @unknown ms₁ ms₂ raw j hsplit hnew =>
    have hm : (raw, j) ∈ ms₁ ++ (raw, j) :: ms₂ := List.mem_append_cons_self
    obtain ⟨name, hname, hp⟩ := exists_part_of_mem hparts hm
    exact hnew name (hknown _ hp) (denotes_of_unescape? (hraw _ hm) hname)
  | @repeated ms₁ ms₂ raw name j hsplit hname hold =>
    subst hsplit
    have hname := unescape?_of_denotes hname
    have htwo := two_le_countP (j := j) hnamed hname hold
    obtain ⟨name', hname', hp⟩ := exists_part_of_mem hparts List.mem_append_cons_self
    rw [hname] at hname'
    cases hname'
    have hone := honce name (hknown _ hp)
    rw [countP_named? hparts] at hone
    omega
  | @replaced ms₁ ms₂ ts₁ ts₂ raw table key handle j hsplit hname htable hj =>
    obtain ⟨name', hname', hp⟩ := exists_part_of_mem hparts List.mem_append_cons_self
    rw [unescape?_of_denotes hname] at hname'
    cases hname'
    have hlookup := lookup_of_mem (honce table (hknown _ hp)) hp
    obtain ⟨n, hlt, hn⟩ := exists_handle_of_ofParts? hof htable hlookup List.mem_append_cons_self
    exact hj n hlt hn

end Refusing

section Loading
variable {text : String}

/-- The result of loading, without the reports on the way. -/
theorem result_load (text : String) : (load text).result =
    (parse? text).elim (.error .notJson) (fun j => (ofJson? j).elim (.error .unfit) .ok) := by
  unfold load
  cases parse? text with
  | none => rfl
  | some j =>
    simp only [Option.elim_some]
    cases ofJson? j with
    | none => rfl
    | some c =>
      simp only [Logged.result_bind, Logged.result_reportAll, Logged.result_report, ok_bind,
        Logged.result_pure, Option.elim_some]

theorem result_load_of_isText {j : Json} (h : IsText j text) :
    (load text).result = (ofJson? j).elim (.error .unfit) .ok := by
  rw [result_load, parse?_of_isText h, Option.elim_some]

theorem result_load_of_not_isText (h : ∀ j, ¬IsText j text) :
    (load text).result = .error .notJson := by
  have hnone : parse? text = none :=
    Option.eq_none_iff_forall_ne_some.mpr (fun j hj => h j (parse?_eq_some_iff.mp hj))
  rw [result_load, hnone, Option.elim_none]

section Regularity
variable {c : HostConfig} {parts : List (String × Json)}

/-- What holds of the default and of all that is read holds of a part. -/
theorem part?_induction {α : Type} {P : α → Prop} {read : Json → Option α} {default a : α}
    {name : String} (hdefault : P default) (hread : ∀ j a, read j = some a → P a)
    (h : part? read default parts name = some a) : P a := by
  unfold part? at h
  split at h
  · exact hread _ a h
  · cases h
    exact hdefault

theorem ordered_of_table? {α : Type} {ofHandle : UInt32 → α} {t : NameTable α} {j : Json}
    (h : table? ofHandle j = some t) : t.Ordered := by
  unfold table? at h
  split at h
  · obtain ⟨_, -, h⟩ := Option.bind_eq_some_iff.mp h
    obtain ⟨entries, -, h⟩ := Option.bind_eq_some_iff.mp h
    cases h
    exact NameTable.ordered_ofList entries
  · cases h

theorem lt_of_lookaheadOf? {l : LookaheadConfig} (h : lookaheadOf? parts = some l) :
    l.batch < 2 ^ 64 ∧ l.capacity < 2 ^ 64 := by
  obtain ⟨batch, hbatch, h⟩ := Option.bind_eq_some_iff.mp h
  obtain ⟨capacity, hcapacity, h⟩ := Option.bind_eq_some_iff.mp h
  cases h
  have hsize {default n : Nat} {name : String} (hdefault : default < 2 ^ 64)
      (hn : part? (nat? sizeLimit) default parts name = some n) : n < 2 ^ 64 :=
    part?_induction (P := (· < 2 ^ 64)) hdefault (fun _ _ hread => (nat?_eq_some_iff.mp hread).2) hn
  exact ⟨hsize (by decide) hbatch, hsize (by decide) hcapacity⟩

theorem lt_of_lookahead? {l : LookaheadConfig} {j : Json} (h : lookahead? j = some l) :
    l.batch < 2 ^ 64 ∧ l.capacity < 2 ^ 64 := by
  unfold lookahead? at h
  split at h
  · obtain ⟨parts, -, h⟩ := Option.bind_eq_some_iff.mp h
    split at h
    · exact lt_of_lookaheadOf? h
    · cases h
  · obtain ⟨parts, -, h⟩ := Option.bind_eq_some_iff.mp h
    exact lt_of_lookaheadOf? h
  · cases h

theorem regular_of_ofParts? (h : ofParts? parts = some c) : c.Regular := by
  obtain ⟨commands, hcommands, h⟩ := Option.bind_eq_some_iff.mp h
  obtain ⟨identifiers, hidentifiers, h⟩ := Option.bind_eq_some_iff.mp h
  obtain ⟨vars, hvars, h⟩ := Option.bind_eq_some_iff.mp h
  obtain ⟨flags, hflags, h⟩ := Option.bind_eq_some_iff.mp h
  obtain ⟨lookahead, hlookahead, h⟩ := Option.bind_eq_some_iff.mp h
  cases h
  have htable {α : Type} {ofHandle : UInt32 → α} {t : NameTable α} {name : String}
      (ht : part? (table? ofHandle) ∅ parts name = some t) : t.Ordered :=
    part?_induction NameTable.ordered_empty (fun _ _ => ordered_of_table?) ht
  obtain ⟨hbatch, hcapacity⟩ : lookahead.batch < 2 ^ 64 ∧ lookahead.capacity < 2 ^ 64 :=
    part?_induction (P := fun l => l.batch < 2 ^ 64 ∧ l.capacity < 2 ^ 64) (by decide)
      (fun _ _ => lt_of_lookahead?) hlookahead
  exact ⟨htable hcommands, htable hidentifiers, htable hvars, htable hflags, hbatch, hcapacity⟩

theorem regular_of_ofJson? {j : Json} (h : ofJson? j = some c) : c.Regular := by
  cases j with
  | object ms =>
    obtain ⟨parts, -, -, -, h⟩ := exists_of_ofJson? h
    exact regular_of_ofParts? h
  | array items =>
    obtain ⟨parts, -, h⟩ := Option.bind_eq_some_iff.mp h
    exact regular_of_ofParts? h
  | _ => cases h

/-- Every host that is loaded keeps its names in order, and its sizes have 64 bits. -/
theorem regular_of_load (h : (load text).result = .ok c) : c.Regular := by
  rw [result_load] at h
  cases hj : parse? text with
  | none =>
    rw [hj] at h
    cases h
  | some j =>
    rw [hj, Option.elim_some] at h
    cases hc : ofJson? j with
    | none =>
      rw [hc] at h
      cases h
    | some c' =>
      rw [hc] at h
      cases h
      exact regular_of_ofJson? hc

end Regularity

/-- Loading undoes writing: every text of an object that describes a host gives that host. A spoiled
description gives none, and neither does a text that spells no value at all. -/
theorem load_describes {ms parts : List (String × Json)} {c : HostConfig} (hc : c.Regular)
    (hnamed : Named ms parts) (h : Describes parts c) :
    (∀ text, IsText (.object ms) text → (load text).result = .ok c) ∧
      (∀ ms' text, Spoiled ms parts ms' → IsText (.object ms') text →
        (load text).result = .error .unfit) ∧
      ∀ text, (∀ j, ¬IsText j text) → (load text).result = .error .notJson := by
  refine ⟨fun text htext => ?_, fun ms' text hspoiled htext => ?_,
    fun _ => result_load_of_not_isText⟩
  · rw [result_load_of_isText htext, ofJson?_of_describes hc hnamed h]
    rfl
  · rw [result_load_of_isText htext, ofJson?_of_spoiled hnamed hspoiled htext.rawString_of_mem]
    rfl

end Loading

section Escaped

/-- A host with two flags and a small look-ahead. -/
def escapedHost : HostConfig := ⟨⟨∅, ∅, ∅, ⟨[("a", ⟨0⟩), ("😀", ⟨4294967295⟩)]⟩⟩, ⟨16, 7⟩⟩

/-- Its flags with escapes in their names, and one of them twice. -/
def escapedFlags (last : Json) : List (String × Json) :=
  [("\\ud83d\\uDE00", nat 4294967295), ("a", nat 1), ("\\u0061", last)]

def escapedMembers (last : Json) : List (String × Json) :=
  [("lookahead", .object [("capacity", nat 7)]), ("fl\\u0061gs", .object (escapedFlags last))]

def escapedParts (last : Json) : List (String × Json) :=
  [("lookahead", .object [("capacity", nat 7)]), ("flags", .object (escapedFlags last))]

theorem codeUnit_letter : CodeUnit '0' '0' '6' '1' 97 :=
  .intro (i := 0) (j := 0) (k := 6) (l := 1) (by decide) (by decide) (by decide) (by decide)

theorem denotes_escaped_letter : Denotes "\\u0061".toList "a".toList :=
  .unit codeUnit_letter (by decide) .nil

theorem denotes_escaped_flags : Denotes "fl\\u0061gs".toList "flags".toList := by
  have hend : Denotes ['g', 's'] ['g', 's'] := denotes_escape "gs"
  exact .plain (by decide) (by decide) (by decide)
    (.plain (by decide) (by decide) (by decide) (.unit codeUnit_letter (by decide) hend))

theorem denotes_escaped_face : Denotes "\\ud83d\\uDE00".toList "😀".toList := by
  have hhigh : CodeUnit 'd' '8' '3' 'd' (0xD800 + 0x3d) :=
    .intro (i := 13) (j := 8) (k := 3) (l := 13) (by decide) (by decide) (by decide) (by decide)
  have hlow : CodeUnit 'D' 'E' '0' '0' (0xDC00 + 0x200) :=
    .intro (i := 13) (j := 14) (k := 0) (l := 0) (by decide) (by decide) (by decide) (by decide)
  exact .pair hhigh hlow (by decide) (by decide) .nil

theorem regular_escapedHost : escapedHost.Regular where
  commands := NameTable.ordered_empty
  identifiers := NameTable.ordered_empty
  vars := NameTable.ordered_empty
  flags := by
    unfold NameTable.Ordered
    decide
  batch := by decide
  capacity := by decide

theorem named_escaped (last : Json) : Named (escapedMembers last) (escapedParts last) :=
  .cons ⟨denotes_escape "lookahead", rfl⟩ (.cons ⟨denotes_escaped_flags, rfl⟩ .nil)

theorem isTable_escaped :
    IsTable Flag.mk escapedHost.own.flags (.object (escapedFlags (nat 0))) := by
  refine ⟨_, [("😀", ⟨4294967295⟩), ("a", ⟨1⟩), ("a", ⟨0⟩)], rfl, ?_, fun name => ?_⟩
  · exact .cons ⟨denotes_escaped_face, 4294967295, isInteger_nat _, rfl⟩
      (.cons ⟨denotes_escape "a", 1, isInteger_nat _, rfl⟩
        (.cons ⟨denotes_escaped_letter, 0, isInteger_nat _, rfl⟩ .nil))
  · rw [← NameTable.get?_ofList]
    rfl

theorem describes_escaped : Describes (escapedParts (nat 0)) escapedHost where
  once := by decide
  known := by decide
  commands := .inr ⟨rfl, by simp [escapedParts]⟩
  identifiers := .inr ⟨rfl, by simp [escapedParts]⟩
  vars := .inr ⟨rfl, by simp [escapedParts]⟩
  flags := .inl ⟨_, List.mem_of_mem_tail List.mem_cons_self, isTable_escaped⟩
  lookahead := by
    refine .inl ⟨_, List.mem_cons_self, _, [("capacity", nat 7)], rfl, ?_, ?_, ?_, ?_, ?_⟩
    · exact .cons ⟨denotes_escape "capacity", rfl⟩ .nil
    · decide
    · decide
    · exact .inr ⟨rfl, by simp⟩
    · exact .inl ⟨_, List.mem_cons_self, isInteger_nat 7⟩

theorem not_isText_words (j : Json) : ¬IsText j "not json" := by
  rintro ⟨w, hw, hp⟩
  have htext : "not json".toList = ['n', 'o', 't', ' ', 'j', 's', 'o', 'n'] := by decide
  rw [htext] at hp
  generalize hcs : ['n', 'o', 't', ' ', 'j', 's', 'o', 'n'] = cs at hp
  cases hp with
  | @intro b b' hb hb' =>
    cases b with
    | cons c b =>
      obtain ⟨rfl, -⟩ := List.cons_eq_cons.mp hcs
      exact absurd (hb 'n' List.mem_cons_self) (by decide)
    | nil =>
      cases hw with
      | number h =>
        obtain ⟨c, cs, rfl, hc⟩ := h.exists_head
        obtain ⟨rfl, -⟩ := List.cons_eq_cons.mp hcs
        exact absurd hc (by decide)
      | _ => cases hcs

theorem strict_escaped {last : Json} (h : Strict last) :
    Strict (.object (escapedMembers last)) := by
  have hlookahead : Strict (.object [("capacity", nat 7)]) := .object
    (List.forall_mem_singleton.mpr (denotes_escape "capacity").rawString)
    (List.forall_mem_singleton.mpr (strict_nat 7))
  have hflags : Strict (.object (escapedFlags last)) := by
    refine .object ?_ ?_
    · simp only [escapedFlags, List.forall_mem_cons]
      exact ⟨denotes_escaped_face.rawString, (denotes_escape "a").rawString,
        denotes_escaped_letter.rawString, by simp⟩
    · simp only [escapedFlags, List.forall_mem_cons]
      exact ⟨strict_nat _, strict_nat _, h, by simp⟩
  refine .object ?_ ?_
  · simp only [escapedMembers, List.forall_mem_cons]
    exact ⟨(denotes_escape "lookahead").rawString, denotes_escaped_flags.rawString, by simp⟩
  · simp only [escapedMembers, List.forall_mem_cons]
    exact ⟨hlookahead, hflags, by simp⟩

theorem spoiled_escaped :
    Spoiled (escapedMembers (nat 0)) (escapedParts (nat 0)) (escapedMembers (int (-1))) := by
  have hminus (n : Nat) : ¬IsInteger (int (-1)) n := by
    rintro ⟨ds, hds, hj, -⟩
    have hlist : ['-', '1'] = ds := by
      rw [← String.toList_ofList (l := ds), ← Json.number.inj hj]
      rfl
    have hdigit := hds '-' (hlist ▸ List.mem_cons_self)
    exact absurd hdigit (by decide)
  exact @Spoiled.replaced _ _ [_] [] [_, _] [] _ "flags" _ _ _ rfl denotes_escaped_flags (by decide)
    (fun n _ => hminus n)

/-- Names with escapes, a surrogate pair among them, a flag that comes twice, parts out of order and
defaults left out; then -1 for the last handle, and a text that is not JSON. -/
theorem load_describes_escaped :
    (load (pretty 0 (.object (escapedMembers (nat 0))) ++ "\n")).result = .ok escapedHost ∧
      (load (pretty 0 (.object (escapedMembers (int (-1)))) ++ "\n")).result = .error .unfit ∧
      (load "not json").result = .error .notJson := by
  obtain ⟨hload, hspoiled, hjunk⟩ :=
    load_describes regular_escapedHost (named_escaped (nat 0)) describes_escaped
  exact ⟨hload _ (strict_escaped (strict_nat 0)).isText_pretty,
    hspoiled _ _ spoiled_escaped (strict_escaped (strict_int (-1))).isText_pretty,
    hjunk _ not_isText_words⟩

end Escaped

end CommandScript.HostConfig
