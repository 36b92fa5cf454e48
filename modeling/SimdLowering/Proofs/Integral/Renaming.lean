/-
What a splice leaves of an integer function.

An operation that stays keeps its kind and its attributes, and the types of what it reads,
only that one value may go by a new name. The new name is the result of an operation that a
rule has made, which is neither a constant nor an extension. So what was known of the values
that an operation reads, that one is a constant or that two are extended from lanes of the
same width, is still known, and an operation of an integer function stays one.
-/
import SimdLowering.Proofs.Integral.Stage
import SimdLowering.Proofs.Rewrite.Renaming

set_option autoImplicit false

namespace SimdLowering

namespace Graph

variable {gen : Generation} {g g' : Graph} {gone : List OpId} {func op d p : OpId} {b : BlockId}
  {v w old : ValueId} {r : Recipe} {bits : Nat} {k : OpKind}

/-- The lanes of a value that exists are as wide as its type says. -/
theorem laneBits_eq_ok : Rules.laneBits g v = .ok bits ↔
    g.HasValue v ∧ ((g.value v).ty.vectorShape.map VectorShape.elemBits).getD 0 = bits := by
  unfold Rules.laneBits valueShape? valueTy lookup
  by_cases hv : g.HasValue v
  · rw [value?_eq_some hv]
    simp only [bind, Except.bind, pure, Except.pure, Functor.map, Except.map, Except.ok.injEq, hv,
      true_and]
  · rw [value?_eq_none hv]
    exact ⟨nofun, fun h => absurd h.1 hv⟩

section

variable (hs : Spliced g g' gone op b old r) (h : Scene g gone func)
  (hr : r.Lawful g func op)
include hs h hr

/-- As long as extensions stay, what was extended from some width still is. -/
theorem Spliced.widenedFrom_renamed (hk : g.kind op ≠ .extsi) (hd : g.Inside func d)
    (hw : w ∈ g.operands d) :
    g'.WidenedFrom bits (renamed old (g.standIn r) w) ↔ g.WidenedFrom bits w := by
  have hwv : g.HasValue w := h.ordered.hasValue_of_mem_operands h.consistent hd hw
  -- The extension is under the function, so what it reads is there.
  have source : ∀ p, w ∈ g.results p → g.kind p = .extsi → g.Inside func p := by
    intro p hp hk
    obtain ⟨x, hx, hfound⟩ := h.definedBy? hd (h.atHand_of_mem_operands hd hw) .extsi rfl
    obtain rfl : x = some p := Except.ok.inj (hx.symm.trans
      ((definedBy?_eq_some hs.before).mpr ⟨hp, hk⟩))
    exact (hfound p rfl).inside
  constructor
  · rintro ⟨s', hs', hbits⟩
    obtain ⟨p, hp, hkind, hslot⟩ := (extensionSource?_eq_some hs.after).mp hs'
    rcases (hs.mem_results_renamed hwv).mp hp with ⟨hne, hp⟩ | ⟨-, rfl⟩
    · have hop := hasOp_of_mem_results hp
      rw [hs.kind_of_hasOp hop] at hkind
      have hpin := source p hp hkind
      rw [hs.operands_of_inside h hpin, List.getElem?_map] at hslot
      obtain ⟨s, hread, rfl⟩ := Option.map_eq_some_iff.mp hslot
      have hsv := h.ordered.hasValue_of_mem_operands h.consistent hpin
        (List.mem_of_getElem? hread)
      refine ⟨s, (extensionSource?_eq_some hs.before).mpr ⟨p, hp, hkind, hread⟩, ?_⟩
      refine laneBits_eq_ok.mpr ⟨hsv, ?_⟩
      rw [← hs.ty_renamed_of_hasValue hr hsv]
      exact (laneBits_eq_ok.mp hbits).2
    · exact absurd hkind (hs.kind_final hr (Or.inl rfl))
  · rintro ⟨s, hs', hbits⟩
    obtain ⟨p, hp, hkind, hslot⟩ := (extensionSource?_eq_some hs.before).mp hs'
    have hpin := source p hp hkind
    have hne : w ≠ old := by
      rintro rfl
      have hold : w ∈ g.results op := by simp [hs.single]
      obtain ⟨i, hi⟩ := List.mem_iff_getElem?.mp hp
      obtain ⟨j, hj⟩ := List.mem_iff_getElem?.mp hold
      exact hk ((hs.before.result_unique hi hj).1 ▸ hkind)
    obtain ⟨hsv, hbits⟩ := laneBits_eq_ok.mp hbits
    refine ⟨renamed old (g.standIn r) s, (extensionSource?_eq_some hs.after).mpr ⟨p,
      (hs.mem_results_renamed hwv).mpr (Or.inl ⟨hne, hp⟩), ?_, ?_⟩, ?_⟩
    · rw [hs.kind_of_hasOp (hasOp_of_mem_results hp), hkind]
    · rw [hs.operands_of_inside h hpin, List.getElem?_map, hslot]
      rfl
    · refine laneBits_eq_ok.mpr ⟨hs.hasValue_renamed hsv, ?_⟩
      rw [hs.ty_renamed_of_hasValue hr hsv, hbits]

theorem Spliced.readsForward (hd : g.Inside func d) (hf : g.ReadsForward d) :
    g'.ReadsForward d := by
  intro access' innermost' value ha hlast hc
  obtain ⟨access, haccess, rfl⟩ := hs.memAccess?_of_eq_ok h hr hd ha
  rw [MemAccess.map, List.getLast?_map] at hlast
  obtain ⟨innermost, hinner, rfl⟩ := Option.map_eq_some_iff.mp hlast
  have hv : g.HasValue innermost := by
    obtain ⟨x, hx, hread⟩ := h.memAccess? hd
    obtain rfl : x = some access := Except.ok.inj (hx.symm.trans haccess)
    obtain ⟨-, hi, -, -⟩ := hread access rfl
    exact (hi innermost (List.mem_of_getLast? hinner)).visible.hasValue h.consistent
  obtain ⟨hconst, -⟩ := hs.constantInt?_renamed hr hv hc
  rw [hs.ty_renamed_of_hasValue hr hv]
  exact hf access innermost value haccess hinner hconst

/-- An operation of an integer function that stays is one afterwards. -/
theorem Integral.spliced (hk : g.kind op ≠ .extsi) (hd : g.Inside func d)
    (hi : g.Integral gen d) : g'.Integral gen d := by
  have hop := hd.hasOp h.consistent.toNestingAgrees
  have hkind := hs.kind_of_hasOp hop
  refine ⟨?_, ?_, fun hred kind hc => ?_, fun hread => ?_, fun hsum lhs rhs hops => ?_⟩
  · rw [hs.regionsOf_of_hasOp hop]
    exact hi.bare
  · rw [hkind, hs.resultTypes_of_hasOp hop, hs.typesOf_operands hr hop
      fun v hv => h.ordered.hasValue_of_mem_operands h.consistent hd hv]
    exact hi.types
  · rw [hkind] at hred
    rw [hs.attrs_of_hasOp hop] at hc
    exact hi.combines hred kind hc
  · rw [hkind] at hread
    exact hs.readsForward h hr hd (hi.forward hread)
  · rw [hkind] at hsum
    rw [hs.operands_of_inside h hd] at hops
    obtain ⟨l, rest, hl, rfl, hrest⟩ := List.map_eq_cons_iff.mp hops
    obtain ⟨m, rfl, rfl⟩ := List.map_eq_singleton_iff.mp hrest
    rw [hs.widenedFrom_renamed h hr hk hd (by simp [hl]),
      hs.widenedFrom_renamed h hr hk hd (by simp [hl])]
    exact hi.widths hsum l m hl

end

end Graph

end SimdLowering
