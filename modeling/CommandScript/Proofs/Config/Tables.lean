import CommandScript.Proofs.Scripts.Placement
import Mathlib
/-! # Ordered name tables

A table that keeps the order of its names is determined by what it gives for each name. A table
built from a list keeps the order, and gives for each name what the last entry of that name says.
The order of the names is the order of their bytes, and the names of a value are found in it.
-/
namespace CommandScript

section Bytes

/-- The bytes that a text is stored in. -/
def bytes (w : String) : List UInt8 := w.toByteArray.data.toList

theorem bytes_eq_flatMap (w : String) : bytes w = w.toList.flatMap String.utf8EncodeChar := by
  rw [bytes, ← String.utf8Encode_toList, List.utf8Encode, List.data_toByteArray]

/-- Whatever follows, the smaller character comes first: no character's bytes begin another's. -/
theorem utf8EncodeChar_append_lt {c d : Char} (h : c < d) (xs ys : List UInt8) :
    String.utf8EncodeChar c ++ xs < String.utf8EncodeChar d ++ ys := by
  have hlt : c.val.toNat < d.val.toNat := h
  have hlimit : d.val.toNat < 0x110000 := d.valid.elim (fun h => by omega) (fun h => h.2)
  -- The pieces of six bits, as one chain of quotients.
  have hsecond (n : Nat) : n / 4096 = n / 64 / 64 := by omega
  have hthird (n : Nat) : n / 262144 = n / 64 / 64 / 64 := by omega
  unfold String.utf8EncodeChar
  generalize c.val.toNat = v at *
  generalize d.val.toNat = w at *
  dsimp only
  split_ifs <;>
    simp only [List.cons_append, List.cons_lt_cons_iff, UInt8.lt_iff_toNat_lt, ← UInt8.toNat_inj,
      UInt8.toNat_ofNat', hsecond, hthird] <;>
    omega

theorem flatMap_utf8EncodeChar_lt {cs ds : List Char} (h : cs < ds) :
    cs.flatMap String.utf8EncodeChar < ds.flatMap String.utf8EncodeChar := by
  induction cs generalizing ds with
  | nil =>
    cases ds with
    | nil => cases h
    | cons d ds =>
      rw [List.flatMap_nil, List.flatMap_cons]
      cases hbytes : String.utf8EncodeChar d with
      | nil =>
        have hsize := String.length_utf8EncodeChar d
        rw [hbytes, List.length_nil] at hsize
        exact absurd hsize (Nat.ne_of_lt d.utf8Size_pos)
      | cons b bs => exact List.nil_lt_cons b _
  | cons c cs ih =>
    cases ds with
    | nil => cases h
    | cons d ds =>
      rw [List.flatMap_cons, List.flatMap_cons]
      rcases List.cons_lt_cons_iff.mp h with hlt | ⟨rfl, hrest⟩
      · exact utf8EncodeChar_append_lt hlt _ _
      · exact List.append_left_lt (ih hrest)

theorem bytes_lt_bytes {v w : String} (h : v < w) : bytes v < bytes w := by
  rw [bytes_eq_flatMap, bytes_eq_flatMap]
  exact flatMap_utf8EncodeChar_lt (String.lt_iff_toList_lt.mp h)

end Bytes

namespace NameTable
variable {α : Type}

/-- The names stand in order, each of them once. -/
def Ordered (t : NameTable α) : Prop := t.entries.Pairwise (fun a b => a.1 < b.1)

theorem pairwise_insertEntry {es : List (String × α)} (h : es.Pairwise (fun a b => a.1 < b.1))
    (name : String) (a : α) : (insertEntry name a es).Pairwise (fun a b => a.1 < b.1) := by
  induction es with
  | nil => exact List.pairwise_singleton _ _
  | cons e es ih =>
    obtain ⟨hfirst, hrest⟩ := List.pairwise_cons.mp h
    unfold insertEntry
    split
    · rename_i hlt
      refine List.pairwise_cons.mpr ⟨fun b hb => ?_, h⟩
      rcases List.mem_cons.mp hb with rfl | hb
      · exact hlt
      · exact String.lt_trans hlt (hfirst b hb)
    · rename_i hge
      split
      · rename_i heq
        subst heq
        exact List.pairwise_cons.mpr ⟨hfirst, hrest⟩
      · rename_i hne
        have hgt : e.1 < name := by
          by_contra hle
          exact hne (String.le_antisymm hle hge)
        refine List.pairwise_cons.mpr ⟨fun b hb => ?_, ih hrest⟩
        rcases mem_insertEntry hb with rfl | hb
        · exact hgt
        · exact hfirst b hb

theorem Ordered.insert {t : NameTable α} (h : t.Ordered) (name : String) (a : α) :
    (t.insert name a).Ordered := pairwise_insertEntry h name a

theorem ordered_empty : (∅ : NameTable α).Ordered := List.Pairwise.nil

/-- Puts in one entry after the other. -/
def insertAll (t : NameTable α) (es : List (String × α)) : NameTable α :=
  es.foldl (fun t e => t.insert e.1 e.2) t

theorem Ordered.insertAll {t : NameTable α} (h : t.Ordered) (es : List (String × α)) :
    (t.insertAll es).Ordered := by
  induction es generalizing t with
  | nil => exact h
  | cons e es ih => exact ih (h.insert e.1 e.2)

/-- The last entry of a name counts, and names without one keep what they have. -/
theorem get?_insertAll (t : NameTable α) (es : List (String × α)) (name : String) :
    (t.insertAll es).get? name = (es.reverse.lookup name).or (t.get? name) := by
  induction es using List.reverseRecOn with
  | nil => rfl
  | append_singleton es e ih =>
    rw [insertAll, List.foldl_append, List.foldl_cons, List.foldl_nil, get?_insert,
      List.reverse_append, List.reverse_singleton, List.singleton_append, List.lookup_cons]
    by_cases hname : name = e.1
    · simp [hname]
    · rw [if_neg hname, beq_false_of_ne hname]
      exact ih

theorem ordered_ofList (es : List (String × α)) : (ofList es).Ordered := ordered_empty.insertAll es

theorem get?_ofList (es : List (String × α)) (name : String) :
    (ofList es).get? name = es.reverse.lookup name :=
  (get?_insertAll ∅ es name).trans Option.or_none

theorem lookup_eq_none_of_lt {es : List (String × α)} {name : String} (h : ∀ e ∈ es, name < e.1) :
    es.lookup name = none := by
  refine List.lookup_eq_none_iff.mpr (fun e he => ?_)
  exact bne_iff_ne.mpr (String.ne_of_lt (h e he))

theorem lookup_head (e : String × α) (es : List (String × α)) :
    (e :: es).lookup e.1 = some e.2 := by
  rw [List.lookup_cons, beq_self_eq_true]

/-- Of two ordered lists with the same look-ups, neither starts before the other. -/
theorem not_head_lt {e f : String × α} {es fs : List (String × α)}
    (hf : (f :: fs).Pairwise (fun a b => a.1 < b.1))
    (h : ∀ name, (e :: es).lookup name = (f :: fs).lookup name) : ¬e.1 < f.1 := by
  intro hlt
  have hnone : (f :: fs).lookup e.1 = none := by
    refine lookup_eq_none_of_lt (fun g hg => ?_)
    rcases List.mem_cons.mp hg with rfl | hg
    · exact hlt
    · exact String.lt_trans hlt (List.rel_of_pairwise_cons hf hg)
  have hsome := h e.1
  rw [hnone, lookup_head] at hsome
  cases hsome

theorem entries_ext {es fs : List (String × α)} (he : es.Pairwise (fun a b => a.1 < b.1))
    (hf : fs.Pairwise (fun a b => a.1 < b.1)) (h : ∀ name, es.lookup name = fs.lookup name) :
    es = fs := by
  induction es generalizing fs with
  | nil =>
    cases fs with
    | nil => rfl
    | cons f fs =>
      have hsome := h f.1
      rw [lookup_head] at hsome
      cases hsome
  | cons e es ih =>
    cases fs with
    | nil =>
      have hsome := h e.1
      rw [lookup_head] at hsome
      cases hsome
    | cons f fs =>
      have hname : e.1 = f.1 :=
        String.le_antisymm (not_head_lt he (fun name => (h name).symm)) (not_head_lt hf h)
      obtain ⟨hfirst, hrest⟩ := List.pairwise_cons.mp he
      obtain ⟨hfirst', hrest'⟩ := List.pairwise_cons.mp hf
      have hvalue : e.2 = f.2 := by
        have hsome := h e.1
        rw [lookup_head, hname, lookup_head] at hsome
        exact Option.some.inj hsome
      have hlookup : ∀ name, es.lookup name = fs.lookup name := by
        intro name
        by_cases heq : name = e.1
        · rw [heq, lookup_eq_none_of_lt hfirst, hname, lookup_eq_none_of_lt hfirst']
        · have hcons := h name
          rwa [List.lookup_cons, List.lookup_cons, ← hname, beq_false_of_ne heq] at hcons
      rw [Prod.ext hname hvalue, ih hrest hrest' hlookup]

/-- An ordered table is determined by what it gives for each name. -/
theorem Ordered.ext {t u : NameTable α} (ht : t.Ordered) (hu : u.Ordered)
    (h : ∀ name, t.get? name = u.get? name) : t = u := by
  obtain ⟨es⟩ := t
  obtain ⟨fs⟩ := u
  exact congrArg mk (entries_ext ht hu h)

section Search
variable {t : NameTable α} {p : α → Bool} {name : String}

theorem lookup_eq_some_iff_mem {es : List (String × α)} (h : (es.map Prod.fst).Nodup) {a : α} :
    es.lookup name = some a ↔ (name, a) ∈ es := by
  refine ⟨fun hget => mem_of_get? (t := ⟨es⟩) hget, fun hmem => ?_⟩
  obtain ⟨before, after, rfl⟩ := List.append_of_mem hmem
  refine List.lookup_eq_some_iff.mpr ⟨before, after, rfl, fun e he => bne_iff_ne.mpr ?_⟩
  rw [List.map_append, List.nodup_append] at h
  exact (h.2.2 e.1 (List.mem_map_of_mem he) name List.mem_cons_self).symm

/-- Where each name stands once, the order of the entries does not matter. -/
theorem lookup_eq_of_perm {es fs : List (String × α)} (hperm : es.Perm fs)
    (h : (fs.map Prod.fst).Nodup) : es.lookup name = fs.lookup name := by
  have h' : (es.map Prod.fst).Nodup := (hperm.map Prod.fst).nodup_iff.mpr h
  refine Option.ext fun a => ?_
  rw [lookup_eq_some_iff_mem h', lookup_eq_some_iff_mem h, hperm.mem_iff]

theorem Ordered.nodup (h : t.Ordered) : (t.entries.map Prod.fst).Nodup :=
  List.pairwise_map.mpr (h.imp String.ne_of_lt)

theorem Ordered.get?_eq_some_iff (h : t.Ordered) {a : α} :
    t.get? name = some a ↔ (name, a) ∈ t.entries :=
  lookup_eq_some_iff_mem h.nodup

theorem Ordered.mem_namesWhere (h : t.Ordered) :
    name ∈ t.namesWhere p ↔ ∃ a, t.get? name = some a ∧ p a = true := by
  simp only [namesWhere, List.mem_map, List.mem_filter, h.get?_eq_some_iff]
  constructor
  · rintro ⟨⟨n, a⟩, ⟨hmem, ha⟩, rfl⟩
    exact ⟨a, hmem, ha⟩
  · rintro ⟨a, hmem, ha⟩
    exact ⟨(name, a), ⟨hmem, ha⟩, rfl⟩

theorem Ordered.pairwise_namesWhere (h : t.Ordered) (p : α → Bool) :
    (t.namesWhere p).Pairwise (· < ·) :=
  List.pairwise_map.mpr (h.filter _)

theorem nameWhere?_eq_head? : t.nameWhere? p = (t.namesWhere p).head? := by
  rw [nameWhere?, namesWhere, List.head?_map, List.head?_filter]

/-- A name is found if there is one, and none of the others stands before it. -/
theorem Ordered.exists_nameWhere? (h : t.Ordered) (hmem : name ∈ t.namesWhere p) :
    ∃ least ∈ t.namesWhere p, t.nameWhere? p = some least ∧
      ∀ other ∈ t.namesWhere p, other = least ∨ least < other := by
  have hordered := h.pairwise_namesWhere p
  rw [nameWhere?_eq_head?]
  cases hnames : t.namesWhere p with
  | nil =>
    rw [hnames] at hmem
    cases hmem
  | cons least others =>
    rw [hnames] at hordered
    refine ⟨least, List.mem_cons_self, rfl, fun other hother => ?_⟩
    exact (List.mem_cons.mp hother).imp_right (List.rel_of_pairwise_cons hordered)

end Search

end NameTable

end CommandScript
