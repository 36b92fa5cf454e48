/-
Numbers stand for types.

The table is canonical: its index knows exactly the entries, so no entry stands in it twice, and
an element is numbered before what is built from it. Interning an entry whose element has a
number keeps this, and only ever adds at the end. So a number keeps its entry, the way down from
a number to its element ends, and by induction along it two numbers that stand for the same type
are the same number.

Together with the text of a type, which says which type it is, this makes numbers, entries and
texts three names for one thing.
-/
import SimdLowering.TypeTable
import SimdLowering.Proofs.Types.Text
import Mathlib.Data.List.Induction

set_option autoImplicit false

namespace SimdLowering

/-! ## One entry -/

namespace TypeData

variable {d d' : TypeData} {f g : TypeId → Option Ty} {ty : Ty}

/-- The type of an entry depends on the type of its element only. -/
theorem type?_congr (h : ∀ e, d.elem? = some e → f e = g e) : d.type? f = d.type? g := by
  cases d with
  | vector lanes e => rw [type?, type?, h e rfl]
  | memory shape e => rw [type?, type?, h e rfl]
  | _ => rfl

/-- An entry whose element has a type has one too. -/
theorem exists_type? (h : ∀ e, d.elem? = some e → ∃ ty, f e = some ty) :
    ∃ ty, d.type? f = some ty := by
  cases d with
  | vector lanes e =>
    obtain ⟨ty, hty⟩ := h e rfl
    exact ⟨.vector lanes ty, by rw [type?, hty]; rfl⟩
  | memory shape e =>
    obtain ⟨ty, hty⟩ := h e rfl
    exact ⟨.memory shape ty, by rw [type?, hty]; rfl⟩
  | int width sign => exact ⟨_, rfl⟩
  | float format => exact ⟨_, rfl⟩
  | index => exact ⟨_, rfl⟩

/-- The type of an entry tells all of it but the number of the element, of which it tells the
type. -/
theorem type?_eq_some : d.type? f = some ty ↔
    match ty with
    | .int width sign => d = .int width sign
    | .float format => d = .float format
    | .index => d = .index
    | .vector lanes elem => ∃ e, d = .vector lanes e ∧ f e = some elem
    | .memory shape elem => ∃ e, d = .memory shape e ∧ f e = some elem := by
  cases d <;> cases ty <;> simp [type?, and_comm]

end TypeData

namespace TypeTable

variable {t t' : TypeTable} {d : TypeData} {id a b : TypeId} {ty : Ty} {n m : Nat}
  {ds early late : List TypeData}

/-! ## One table -/

/-- The index knows exactly the entries, and elements come before what is built from them. -/
structure Canonical (t : TypeTable) : Prop where
  indexed : ∀ d id, t.numbers.lookup d = some id ↔ t.get? id = some d
  elements : ∀ d id e, t.get? id = some d → d.elem? = some e → e.index < id.index

theorem lt_of_get? (h : t.get? id = some d) : id.index < t.entries.length :=
  (List.getElem?_eq_some_iff.mp h).1

theorem canonical_empty : Canonical empty := by
  constructor
  · simp [empty, get?]
  · simp [empty, get?]

/-- No entry has two numbers. -/
theorem Canonical.get?_inj (h : t.Canonical) (ha : t.get? a = some d) (hb : t.get? b = some d) :
    a = b := by
  have ha := (h.indexed d a).mpr ha
  rw [(h.indexed d b).mpr hb] at ha
  exact (Option.some.inj ha).symm

/-- The second table is the first with more entries at the end. -/
def Grows (t t' : TypeTable) : Prop := t.entries <+: t'.entries

theorem Grows.get? (h : Grows t t') (hid : id.index < t.entries.length) :
    t'.get? id = t.get? id := by
  obtain ⟨more, hmore⟩ := h
  rw [TypeTable.get?, TypeTable.get?, ← hmore, List.getElem?_append_left hid]

theorem get?_push {d' : TypeData} : (t.push d).1.get? id = some d' ↔
    t.get? id = some d' ∨ id = ⟨t.entries.length⟩ ∧ d = d' := by
  obtain ⟨k⟩ := id
  simp only [push, get?, TypeId.mk.injEq]
  by_cases hk : k < t.entries.length
  · rw [List.getElem?_append_left hk]
    simp [Nat.ne_of_lt hk]
  · rw [List.getElem?_append_right (by omega), List.getElem?_eq_none (l := t.entries) (by omega)]
    by_cases heq : k = t.entries.length
    · simp [heq]
    · rw [List.getElem?_eq_none (by simp; omega)]
      simp [heq]

/-- An entry that is not there yet may be put at the end, if its element is there. -/
theorem Canonical.push (h : t.Canonical) (hnew : ∀ id, t.get? id ≠ some d)
    (hd : ∀ e, d.elem? = some e → e.index < t.entries.length) : (t.push d).1.Canonical := by
  refine ⟨fun d' id => ?_, fun d' id e hid he => ?_⟩
  · rw [get?_push]
    change List.lookup d' ((d, ⟨t.entries.length⟩) :: t.numbers) = some id ↔ _
    by_cases hdd : d' = d
    · subst hdd
      simp [hnew id, eq_comm]
    · rw [List.lookup_cons, beq_false_of_ne hdd, h.indexed]
      have hdd' : ¬ d = d' := fun h => hdd h.symm
      simp [hdd']
  · rcases get?_push.mp hid with hid | ⟨rfl, rfl⟩
    · exact h.elements d' id e hid he
    · exact hd e he

/-- Whatever is interned, the table only grows. -/
theorem grows_intern : Grows t (t.intern d).1 := by
  unfold intern
  cases t.numbers.lookup d with
  | some id => exact List.prefix_refl _
  | none => exact List.prefix_append _ _

/-- Interning finds or makes the number of the entry. -/
theorem Canonical.intern (h : t.Canonical)
    (hd : ∀ e, d.elem? = some e → e.index < t.entries.length) :
    (t.intern d).1.Canonical ∧ (t.intern d).1.get? (t.intern d).2 = some d := by
  unfold TypeTable.intern
  cases hfind : t.numbers.lookup d with
  | some id => exact ⟨h, (h.indexed d id).mp hfind⟩
  | none =>
    have hnew : ∀ id, t.get? id ≠ some d := by
      intro id hid
      rw [(h.indexed d id).mpr hid] at hfind
      cases hfind
    exact ⟨h.push hnew hd, get?_push.mpr (Or.inr ⟨rfl, rfl⟩)⟩

/-! ## The type behind a number -/

/-- A number in a canonical table stands for a type, and it does not matter how far the way down
may be as long as it is not cut off. -/
theorem Canonical.exists_typeWithin (h : t.Canonical) (hid : t.get? id = some d) :
    ∃ ty, ∀ n, id.index < n → t.typeWithin n id = some ty := by
  -- Every element has a smaller number.
  obtain ⟨k, hk⟩ : ∃ k, id.index = k := ⟨_, rfl⟩
  induction k using Nat.strongRecOn generalizing id d with
  | ind k ih =>
    have helem : ∀ e, d.elem? = some e → ∃ ty, ∀ n, e.index < n → t.typeWithin n e = some ty := by
      intro e he
      have hlt := h.elements d id e hid he
      have hin : e.index < t.entries.length := Nat.lt_trans hlt (lt_of_get? hid)
      exact ih e.index (by omega) (List.getElem?_eq_getElem hin) rfl
    obtain ⟨ty, hty⟩ := TypeData.exists_type? (f := t.typeWithin id.index) fun e he => by
      obtain ⟨ty, hty⟩ := helem e he
      exact ⟨ty, hty _ (h.elements d id e hid he)⟩
    refine ⟨ty, fun n hn => ?_⟩
    obtain ⟨n, rfl⟩ : ∃ j, n = j + 1 := ⟨n - 1, by omega⟩
    rw [typeWithin, hid, Option.bind_some, ← hty]
    refine TypeData.type?_congr fun e he => ?_
    obtain ⟨ty', hty'⟩ := helem e he
    have hlt := h.elements d id e hid he
    rw [hty' _ hlt, hty' _ (by omega)]

/-- The type behind a number is made of the entry and the type behind its element. -/
theorem Canonical.type?_eq (h : t.Canonical) (hid : t.get? id = some d) :
    t.type? id = d.type? t.type? := by
  have hlen := lt_of_get? hid
  obtain ⟨ty, hty⟩ := h.exists_typeWithin hid
  rw [TypeTable.type?, hty _ hlen, ← hty (t.entries.length + 1) (by omega), typeWithin, hid]
  rfl

theorem Canonical.exists_type? (h : t.Canonical) (hid : t.get? id = some d) :
    ∃ ty, t.type? id = some ty := by
  obtain ⟨ty, hty⟩ := h.exists_typeWithin hid
  exact ⟨ty, hty _ (lt_of_get? hid)⟩

/-- A larger table has the same type behind a number. -/
theorem Canonical.type?_grows (h : t.Canonical) (h' : t'.Canonical) (hgrows : Grows t t')
    (hid : t.get? id = some d) : t'.type? id = t.type? id := by
  obtain ⟨k, hk⟩ : ∃ k, id.index = k := ⟨_, rfl⟩
  induction k using Nat.strongRecOn generalizing id d with
  | ind k ih =>
    have hid' : t'.get? id = some d := by rw [hgrows.get? (lt_of_get? hid), hid]
    rw [h'.type?_eq hid', h.type?_eq hid]
    refine TypeData.type?_congr fun e he => ?_
    have hlt := h.elements d id e hid he
    have hin : e.index < t.entries.length := Nat.lt_trans hlt (lt_of_get? hid)
    exact ih e.index (by omega) (List.getElem?_eq_getElem hin) rfl

/-- A number with a type has an entry of this type. -/
theorem Canonical.exists_get? (h : t.Canonical) (hty : t.type? id = some ty) :
    ∃ d, t.get? id = some d ∧ d.type? t.type? = some ty := by
  cases hid : t.get? id with
  | none =>
    have hnone : ∀ n, t.typeWithin n id = none := by
      intro n
      cases n with
      | zero => rfl
      | succ n => rw [typeWithin, hid]; rfl
    rw [TypeTable.type?, hnone] at hty
    cases hty
  | some d => exact ⟨d, rfl, by rw [← h.type?_eq hid, hty]⟩

/-- Numbers of the same type are the same. -/
theorem Canonical.type?_inj (h : t.Canonical) (ha : t.type? a = some ty)
    (hb : t.type? b = some ty) : a = b := by
  -- Element types are references themselves, and by induction these are the same already.
  induction ty generalizing a b with
  | vector lanes elem ih =>
    obtain ⟨da, hga, hda⟩ := h.exists_get? ha
    obtain ⟨db, hgb, hdb⟩ := h.exists_get? hb
    obtain ⟨e, rfl, he⟩ := TypeData.type?_eq_some.mp hda
    obtain ⟨e', rfl, he'⟩ := TypeData.type?_eq_some.mp hdb
    obtain rfl := ih he he'
    exact h.get?_inj hga hgb
  | memory shape elem ih =>
    obtain ⟨da, hga, hda⟩ := h.exists_get? ha
    obtain ⟨db, hgb, hdb⟩ := h.exists_get? hb
    obtain ⟨e, rfl, he⟩ := TypeData.type?_eq_some.mp hda
    obtain ⟨e', rfl, he'⟩ := TypeData.type?_eq_some.mp hdb
    obtain rfl := ih he he'
    exact h.get?_inj hga hgb
  | _ =>
    obtain ⟨da, hga, hda⟩ := h.exists_get? ha
    obtain ⟨db, hgb, hdb⟩ := h.exists_get? hb
    obtain rfl := TypeData.type?_eq_some.mp hda
    obtain rfl := TypeData.type?_eq_some.mp hdb
    exact h.get?_inj hga hgb

/-! ## A sequence of calls -/

/-- Intern one entry after the other, into an empty table. Gives the table and the numbers handed
out, in order. -/
def numbered (ds : List TypeData) : TypeTable × List TypeId :=
  ds.foldl (fun s d => ((s.1.intern d).1, s.2 ++ [(s.1.intern d).2])) (empty, [])

/-- Every element has been handed out a number before the entry is interned. -/
def ElementsFirst (ds : List TypeData) : Prop :=
  ∀ (i : Nat) (h : i < ds.length), ∀ e ∈ ds[i].elem?, e ∈ (numbered (ds.take i)).2

instance (ds : List TypeData) : Decidable (ElementsFirst ds) :=
  inferInstanceAs (Decidable (∀ (i : Nat) (h : i < ds.length), ∀ e ∈ ds[i].elem?, _))

theorem numbered_append_singleton (ds : List TypeData) (d : TypeData) :
    numbered (ds ++ [d]) = (((numbered ds).1.intern d).1,
      (numbered ds).2 ++ [((numbered ds).1.intern d).2]) := by
  rw [numbered, List.foldl_append, List.foldl_cons, List.foldl_nil]
  rfl

theorem ElementsFirst.left (h : ElementsFirst (early ++ late)) : ElementsFirst early := by
  intro i hi e he
  have := h i (by simp; omega) e (by rwa [List.getElem_append_left hi])
  rwa [List.take_append_of_le_length (by omega)] at this

theorem ElementsFirst.last (h : ElementsFirst (ds ++ [d])) : ∀ e ∈ d.elem?,
    e ∈ (numbered ds).2 := by
  intro e he
  have := h ds.length (by simp) e (by simpa using he)
  rwa [List.take_left] at this

/-- Further calls leave the numbers handed out alone. -/
theorem numbered_grows (early late : List TypeData) :
    Grows (numbered early).1 (numbered (early ++ late)).1 ∧
      ∀ id ∈ (numbered early).2, id ∈ (numbered (early ++ late)).2 := by
  induction late using List.reverseRecOn with
  | nil => simp [Grows]
  | append_singleton late d ih =>
    rw [← List.append_assoc, numbered_append_singleton]
    exact ⟨ih.1.trans grows_intern, fun id hid => List.mem_append_left _ (ih.2 id hid)⟩

/-- A number that is handed out has an entry, where every number stands for the entry it was
handed out for. -/
theorem exists_get?_of_mem {ids : List TypeId} (h : ids.map t.get? = ds.map some)
    (hid : id ∈ ids) : ∃ d, t.get? id = some d := by
  have hmem := List.mem_map_of_mem (f := t.get?) hid
  rw [h] at hmem
  obtain ⟨d, -, hd⟩ := List.mem_map.mp hmem
  exact ⟨d, hd.symm⟩

/-- After a sequence of calls the table is canonical, and every number stands for the entry it was
handed out for. -/
theorem canonical_numbered (first : ElementsFirst ds) : (numbered ds).1.Canonical ∧
    (numbered ds).2.map (numbered ds).1.get? = ds.map some := by
  induction ds using List.reverseRecOn with
  | nil => exact ⟨canonical_empty, rfl⟩
  | append_singleton ds d ih =>
    obtain ⟨hc, hids⟩ := ih first.left
    have hin : ∀ id ∈ (numbered ds).2, id.index < (numbered ds).1.entries.length := by
      intro id hid
      obtain ⟨d', hd'⟩ := exists_get?_of_mem hids hid
      exact lt_of_get? hd'
    obtain ⟨hc', hd⟩ := hc.intern (d := d) fun e he => hin e (first.last e he)
    rw [numbered_append_singleton]
    refine ⟨hc', ?_⟩
    rw [List.map_append, List.map_append, ← hids, List.map_singleton, hd, List.map_singleton]
    congr 1
    exact List.map_congr_left fun id hid => grows_intern.get? (hin id hid)

/-- Take any sequence of calls that interns every element before what is built from it. The number
that a call hands out stands for the entry of this call, and goes on to do so, with the same text,
whatever is interned later. Two numbers handed out are the same exactly if their entries are, and
exactly if their texts are. -/
theorem numbered_faithful (first : ElementsFirst ds) :
    (numbered ds).2.map (numbered ds).1.get? = ds.map some ∧
    (∀ early late, ds = early ++ late → ∀ id ∈ (numbered early).2, id ∈ (numbered ds).2 ∧
      (numbered ds).1.get? id = (numbered early).1.get? id ∧
      (numbered ds).1.text? id = (numbered early).1.text? id) ∧
    ∀ a ∈ (numbered ds).2, ∀ b ∈ (numbered ds).2,
      ((numbered ds).1.text? a).isSome ∧
      (a = b ↔ (numbered ds).1.get? a = (numbered ds).1.get? b) ∧
      ((numbered ds).1.get? a = (numbered ds).1.get? b ↔
        (numbered ds).1.text? a = (numbered ds).1.text? b) := by
  obtain ⟨hc, hids⟩ := canonical_numbered first
  refine ⟨hids, ?_, ?_⟩
  · rintro early late rfl id hid
    obtain ⟨hc₁, hids₁⟩ := canonical_numbered first.left
    obtain ⟨hgrows, hmore⟩ := numbered_grows early late
    obtain ⟨d, hd⟩ := exists_get?_of_mem hids₁ hid
    refine ⟨hmore id hid, hgrows.get? (lt_of_get? hd), ?_⟩
    rw [text?, text?, hc₁.type?_grows hc hgrows hd]
  -- Entries and texts both determine the reference, so they determine each other.
  · intro a ha b hb
    obtain ⟨da, hda⟩ := exists_get?_of_mem hids ha
    obtain ⟨db, hdb⟩ := exists_get?_of_mem hids hb
    obtain ⟨ta, hta⟩ := hc.exists_type? hda
    obtain ⟨tb, htb⟩ := hc.exists_type? hdb
    have hentry : (numbered ds).1.get? a = (numbered ds).1.get? b → a = b := by
      intro heq
      exact hc.get?_inj hda (by rw [← heq, hda])
    have htext : (numbered ds).1.text? a = (numbered ds).1.text? b → a = b := by
      intro heq
      simp only [text?, hta, htb, Option.map_some, Option.some.injEq] at heq
      rw [← Ty.render_injective heq] at htb
      exact hc.type?_inj hta htb
    refine ⟨by simp [text?, hta], ⟨fun h => by rw [h], hentry⟩, fun h => ?_, fun h => ?_⟩
    · rw [hentry h]
    · rw [htext h]

/-- Bytes, vectors of four bytes, memory for four such vectors and for four times four bytes; the
bytes and the vectors are interned again, and an index at last. -/
def repeatedCalls : List TypeData :=
  [.int 8 .signless, .vector 4 ⟨0⟩, .memory [4] ⟨1⟩, .memory [4, 4] ⟨0⟩, .int 8 .signless,
    .vector 4 ⟨0⟩, .index]

/-- The second calls hand out the first numbers, and the two kinds of memory have two texts. -/
theorem numbered_faithful_repeated :
    ElementsFirst repeatedCalls ∧
    (numbered repeatedCalls).2 = [⟨0⟩, ⟨1⟩, ⟨2⟩, ⟨3⟩, ⟨0⟩, ⟨1⟩, ⟨4⟩] ∧
    (numbered repeatedCalls).2.map (numbered repeatedCalls).1.text? =
      [some "i8", some "vector<4xi8>", some "memref<4xvector<4xi8>>", some "memref<4x4xi8>",
        some "i8", some "vector<4xi8>", some "index"] ∧
    (numbered repeatedCalls).2.map (numbered repeatedCalls).1.get? = repeatedCalls.map some ∧
    (numbered repeatedCalls).1.get? ⟨2⟩ ≠ (numbered repeatedCalls).1.get? ⟨3⟩ := by
  have first : ElementsFirst repeatedCalls := by decide
  have hids : (numbered repeatedCalls).2 = [⟨0⟩, ⟨1⟩, ⟨2⟩, ⟨3⟩, ⟨0⟩, ⟨1⟩, ⟨4⟩] := by decide
  obtain ⟨hget, -, hsame⟩ := numbered_faithful first
  refine ⟨first, hids, by decide, hget, ?_⟩
  have hmem : ∀ id ∈ [(⟨2⟩ : TypeId), ⟨3⟩], id ∈ (numbered repeatedCalls).2 := by
    rw [hids]
    decide
  rw [Ne, ← (hsame ⟨2⟩ (hmem _ (by simp)) ⟨3⟩ (hmem _ (by simp))).2.1]
  decide

end TypeTable

end SimdLowering
