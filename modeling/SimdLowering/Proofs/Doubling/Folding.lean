/-
A splat, folded into a multiply-add.

A multiply-add of the first generation reads the lanes of its right operand in order, or it
multiplies by one of them everywhere. A factor that is a splat of an extracted lane is therefore
not needed: the vector that the lane is extracted from becomes the right operand, the lane is
selected there, and the other factor becomes the left operand. What is multiplied in each lane
stays the same, provided the lanes were read in order before. The rule does not look at what is
selected already, so a second fold loses the selection that the first one made.
-/
import SimdLowering.Proofs.Doubling.Placed

set_option autoImplicit false

namespace SimdLowering

open SimdLowering.Rules

variable {n width : Nat} {sign : Signedness} {x y w : Fin n → Int} {position : Int}

/-! ## What is selected -/

/-- In lane `i` a multiply-add with the selection multiplies by lane `j` of its right operand:
the lane that is selected for all, or the lane itself where none is. -/
def Shuffle.ReadsRight (s : Shuffle) (i j : Nat) : Prop :=
  (s.z.start = "" ∧ j = i) ∨ ∃ position : Int, s.z.start = toString position ∧ j = asWord position

/-- With the selection, the lanes of the operands multiply out to the integers. -/
def Shuffle.MultipliesOut (s : Shuffle) (left right : List Lane) (w : Fin n → Int) : Prop :=
  ∀ i : Fin n, ∃ j a b, s.ReadsRight i j ∧ left[i.val]? = some (.int a) ∧
    right[j]? = some (.int b) ∧ w i = a * b

/-- The text of a position is never that of no selection. -/
theorem toString_ne_empty (position : Int) : toString position ≠ "" := by
  cases position with
  | ofNat n => exact Nat.repr_ne_empty
  | negSucc n =>
    change "-" ++ Nat.repr (n + 1) ≠ ""
    simp

/-- Where no lane is selected, the lanes are read in order. -/
theorem Shuffle.ReadsRight.eq {s : Shuffle} {i j : Nat} (h : s.ReadsRight i j)
    (hs : s.z.start = "") : j = i := by
  rcases h with ⟨-, rfl⟩ | ⟨position, hstart, -⟩
  · rfl
  · exact absurd (hstart.symm.trans hs) (toString_ne_empty position)

/-- Read in order, integers multiply out to their products and to nothing else. -/
theorem Shuffle.multipliesOut_iff_of_inOrder {s : Shuffle} (hs : s.z.start = "") :
    s.MultipliesOut (RtValue.ofInts x).lanes (RtValue.ofInts y).lanes w ↔
      w = fun i => x i * y i := by
  constructor
  · intro h
    funext i
    obtain ⟨j, a, b, hj, ha, hb, hw⟩ := h i
    obtain rfl := hj.eq hs
    simp only [RtValue.lanes_ofInts, List.getElem?_ofFn, i.isLt, dite_true, Option.some.injEq,
      Lane.int.injEq] at ha hb
    rw [hw, ← ha, ← hb]
  · rintro rfl i
    refine ⟨i, x i, y i, Or.inl ⟨hs, rfl⟩, ?_, ?_, rfl⟩ <;> simp [RtValue.lanes_ofInts]

/-- With a lane selected, they multiply out to the products with that lane. -/
theorem Shuffle.multipliesOut_of_splatShuffle? {s s' : Shuffle} {right : List Lane} {b : Int}
    (h : splatShuffle? width position s = some s') (hb : right[asWord position]? = some (.int b))
    (hw : ∀ i, w i = x i * b) : s'.MultipliesOut (RtValue.ofInts x).lanes right w := by
  have hstart : s'.z.start = toString position := by
    unfold splatShuffle? at h
    split at h
    · cases h
      rfl
    · cases h
      rfl
    · cases h
  intro i
  exact ⟨asWord position, x i, b, Or.inr ⟨position, hstart, rfl⟩, by simp [RtValue.lanes_ofInts],
    hb, hw i⟩

/-! ## Splats and extracts -/

namespace Graph

variable {g g' : Graph} {gone : List OpId} {func op o d splat : OpId} {entry : BlockId}
  {v source first rhs factor : ValueId} {args : List RtValue} {ρ : Env} {i : Nat} {l : List Lane}
  {sizes sizes' : AccessSizes} {edits : Edits}

/-- The operands from the first one on. -/
theorem operands_eq_cons (h : (g.operands o)[0]? = some v) : ∃ rest, g.operands o = v :: rest :=
  List.head?_eq_some_iff.mp ((List.head?_eq_getElem? ..).trans h)

/-- The operation is a splat of the lane that is extracted from the vector at the position. -/
structure SplatOf (g : Graph) (splat : OpId) (source : ValueId) (position : Int) : Prop where
  kind : g.kind splat = .broadcast
  extracted : ∃ lane extract, (g.operands splat)[0]? = some lane ∧ lane ∈ g.results extract ∧
    g.kind extract = .extract ∧ (g.operands extract)[0]? = some source ∧
      g.extractPosition? extract = some position

/-- Splats have lanes of the type of what they read. -/
def SplatsTyped (g : Graph) (func : OpId) : Prop :=
  ∀ d v w, g.Inside func d → g.kind d = .broadcast → v ∈ g.results d →
    (g.operands d)[0]? = some w → (g.value w).ty = (g.value v).ty.elementType

/-- What is extracted from a vector has the type of its lanes. -/
theorem Scene.ty_extract (hscene : Scene g gone func) (hin : g.Inside func o)
    (hk : g.kind o = .extract) (hres : g.results o = [v]) (hs : (g.operands o)[0]? = some source) :
    (g.value v).ty = (g.value source).ty.elementType := by
  refine hscene.ty_of_result hin hres ?_
  rw [hk, typesOf, OpKind.resultTyOf, List.getElem?_map, hs]
  rfl

section

variable (hscene : Scene g gone func) (hat : g.Arrives func entry args op ρ)
  (hargs : List.Forall₂ (fun v x => x.Normal (g.value v).ty) (g.argsOf entry) args)
include hscene hat hargs

/-- An integer that was extracted on the way is the lane of the vector at the position: in range
as that is, it is not changed. -/
theorem Arrives.lane_of_extract (hp : Precedes (g.opsIn entry) o op) (hk : g.kind o = .extract)
    (hv : v ∈ g.results o) (hs : (g.operands o)[0]? = some source)
    (hposition : g.extractPosition? o = some position) (hty : (g.value v).ty = .int width sign) :
    ∃ s b, ρ.get? source = some s ∧ s.lanes[asWord position]? = some (.int b) ∧
      (Lane.int b).normalize (.int width sign) = .int b ∧ (g.known ρ v).lanes = [.int b] := by
  have hin := hat.isEntry.holdsBlock.inside hp.mem_left
  have hres := hscene.results_eq hin (by rw [hk]; decide) (by rw [hk]; decide) hv
  obtain ⟨rest, hops⟩ := operands_eq_cons hs
  have hread := hat.eval_known hscene hp hres
  rw [hk, knownOperands, hops, List.map_cons] at hread
  obtain ⟨c, hc, hread⟩ := Frame.eval_extract.mp hread
  rw [intOrZero_of_extractPosition? hposition] at hc
  -- The source is seen at the extract, so it is bound, and its lanes are in the range of its type.
  have hvis := (hscene.ordered.visible o hin source (by simp [hops])).later hscene.consistent hp
  have hbound := get?_known (g := g) (hat.isSome_of_visible hscene hvis)
  have hnormal := hat.normal_of_visible hscene hargs hvis hbound c (List.mem_of_getElem? hc)
  rw [ElemKind.ofTy, ← hscene.ty_extract hin hk hres hs, hty] at hnormal
  obtain ⟨hint, -⟩ := Lane.eq_int_of_normalize hnormal
  rw [hty] at hread
  have hwraps := (Frame.wraps_of_shapeAs hread).resolve_left (List.cons_ne_nil c [])
  rw [Frame.shapeAs_of_not_isVector rfl hwraps,
    show c.normalize (.ofTy (.int width sign)) = c from hnormal] at hread
  refine ⟨_, c.asInt, hbound, hint ▸ hc, hint ▸ hnormal, ?_⟩
  rw [Known.lanes, ← Option.some.inj hread, ← hint]
  rfl

/-- The lanes of a splat that was computed on the way all are the lane it was extracted from. -/
theorem SplatOf.lanes (htyped : g.SplatsTyped func) (h : g.SplatOf splat source position)
    (hp : Precedes (g.opsIn entry) splat op) (hv : v ∈ g.results splat)
    (hty : (g.value v).ty = .vector n (.int width sign)) (hx : ρ.get? v = some (.ofInts x)) :
    ∃ s b, ρ.get? source = some s ∧ s.lanes[asWord position]? = some (.int b) ∧ ∀ i, x i = b := by
  obtain ⟨lane, extract, hlane, hextract, hkind, hsource, hposition⟩ := h.extracted
  have hin := hat.isEntry.holdsBlock.inside hp.mem_left
  have hearlier := (hscene.precedes_of_mem_operands hat.isEntry hp.mem_left
    (List.mem_of_getElem? hlane) hextract).trans (hscene.consistent.placedOnce entry) hp
  have hlaneTy : (g.value lane).ty = .int width sign := by
    rw [htyped splat v lane hin h.kind hv hlane, hty]
    rfl
  obtain ⟨s, b, hs, hb, hnormal, hknown⟩ :=
    hat.lane_of_extract hscene hargs hearlier hkind hextract hsource hposition hlaneTy
  refine ⟨s, b, hs, hb, fun i => ?_⟩
  -- What is splat is that lane.
  have hres := hscene.results_eq hin (by rw [h.kind]; decide) (by rw [h.kind]; decide) hv
  obtain ⟨rest, hops⟩ := operands_eq_cons hlane
  have hsplat := hat.eval_known hscene hp hres
  rw [h.kind, knownOperands, hops, List.map_cons] at hsplat
  obtain ⟨c, hc, hsplat⟩ := Frame.eval_broadcast.mp hsplat
  rw [hknown] at hc
  obtain rfl := Option.some.inj hc
  rw [hty] at hsplat
  rw [Frame.shapeAs_of_isVector rfl (Frame.wraps_of_shapeAs hsplat), List.map_replicate,
    show (Lane.int b).normalize (.ofTy (.vector n (.int width sign))) = .int b from hnormal,
    known, hx] at hsplat
  have hmem : Lane.int (x i) ∈ (RtValue.ofInts x).lanes := by
    rw [RtValue.lanes_ofInts]
    exact List.mem_ofFn.mpr ⟨i, rfl⟩
  rw [← show List.replicate _ (Lane.int b) = (RtValue.ofInts x).lanes from
    congrArg RtValue.lanes (Option.some.inj hsplat)] at hmem
  exact Lane.int.inj (List.eq_of_mem_replicate hmem)

end

/-! ## Folding -/

theorem eq_of_source_eq_ok {v : ValueId} {o : Operand Source} (h : g.source v = .ok o) :
    o = ⟨.value v, (g.value v).ty⟩ := by
  obtain ⟨ty, hty, h⟩ := bind_eq_ok.mp h
  obtain rfl := Except.ok.inj h
  rw [ty_of_map_ty (map_ty_of_valueTy hty)]

/-- A multiply-add reads its factors and a summand, the left factor through what pads it. -/
structure MultipliesPadded (g : Graph) (op : OpId) (first rhs acc : ValueId) : Prop where
  left : ∃ padded concat, (g.operands op)[0]? = some padded ∧ padded ∈ g.results concat ∧
    g.kind concat = .concat ∧ (g.operands concat)[0]? = some first
  right : (g.operands op)[1]? = some rhs
  summand : (g.operands op)[2]? = some acc

/-- One of two factors is a splat of the lane of the source, and the other is kept. -/
def SplatsFactor (g : Graph) (first rhs factor source : ValueId) (position : Int) : Prop :=
  ∃ splat v, g.SplatOf splat source position ∧ v ∈ g.results splat ∧
    (v = first ∧ factor = rhs ∨ v = rhs ∧ factor = first)

/-- Where the search for a splat among the factors succeeds, it is one of the two. -/
theorem splatAndFactor?_eq_some (hc : Consistent g gone)
    (h : splatAndFactor? g first rhs = .ok (some (splat, factor))) :
    g.kind splat = .broadcast ∧ ∃ v, v ∈ g.results splat ∧
      (v = first ∧ factor = rhs ∨ v = rhs ∧ factor = first) := by
  obtain ⟨found, hfound, h⟩ := bind_eq_ok.mp h
  cases found with
  | some splat' =>
    cases h
    obtain ⟨hv, hk⟩ := (definedBy?_eq_some hc).mp hfound
    exact ⟨hk, first, hv, Or.inl ⟨rfl, rfl⟩⟩
  | none =>
    obtain ⟨found', hfound', h⟩ := bind_eq_ok.mp h
    obtain ⟨splat', rfl, he⟩ := Option.map_eq_some_iff.mp (Except.ok.inj h)
    cases he
    obtain ⟨hv, hk⟩ := (definedBy?_eq_some hc).mp hfound'
    exact ⟨hk, rhs, hv, Or.inr ⟨rfl, rfl⟩⟩

/-- What the rule decides where it folds: the factor that is no splat becomes the left one, and
the lane is selected in the vector that it was extracted from. -/
theorem foldBroadcastToFma_folds (hc : Consistent g gone) {acc : ValueId}
    (hmul : g.MultipliesPadded op first rhs acc)
    (hrun : foldBroadcastToFma.run g op sizes = .ok (g', sizes', .matched edits)) :
    ∃ factor source position shuffle bits ty concatTy fmsub,
      g.SplatsFactor first rhs factor source position ∧
        splatShuffle? bits position (.ofAttrs (g.attrs op)) = some shuffle ∧
        (Decision.follow (foldedFmaPlan ty concatTy ⟨.value factor, (g.value factor).ty⟩
          (.value source) (.value acc) shuffle fmsub)).perform g = (g', .matched edits) := by
  obtain ⟨-, decision, hlook, hperform⟩ := Rule.run_ofDecision_eq_ok.mp hrun
  obtain ⟨padded, concat, hpadded, hconcat, hkind, hfirst⟩ := hmul.left
  rw [operandAt_eq_ok.mpr hpadded, operandAt_eq_ok.mpr hmul.right,
    operandAt_eq_ok.mpr hmul.summand] at hlook
  obtain ⟨_, e, hlook⟩ := bind_eq_ok.mp hlook
  obtain rfl := Except.ok.inj e
  obtain ⟨_, e, hlook⟩ := bind_eq_ok.mp hlook
  obtain rfl := Except.ok.inj e
  obtain ⟨_, e, hlook⟩ := bind_eq_ok.mp hlook
  obtain rfl := Except.ok.inj e
  obtain ⟨_, e, hlook⟩ := bind_eq_ok.mp hlook
  obtain rfl := Except.ok.inj (((definedBy?_eq_some hc).mpr ⟨hconcat, hkind⟩).symm.trans e)
  obtain ⟨_, e, hlook⟩ := bind_eq_ok.mp hlook
  obtain rfl := Except.ok.inj ((operandAt_eq_ok.mpr hfirst).symm.trans e)
  -- Wherever the rule does not find what it looks for, it declines.
  have declined : decision ≠ .decline := by
    rintro rfl
    cases (Prod.mk.inj hperform).2
  obtain ⟨found, hfound, hlook⟩ := bind_eq_ok.mp hlook
  cases found with
  | none => exact absurd (Except.ok.inj hlook).symm declined
  | some found =>
    obtain ⟨splat, factor⟩ := found
    obtain ⟨hsplat, v, hv, hside⟩ := splatAndFactor?_eq_some hc hfound
    obtain ⟨lane, hlane, hlook⟩ := bind_eq_ok.mp hlook
    obtain ⟨found, hextract, hlook⟩ := bind_eq_ok.mp hlook
    cases found with
    | none => exact absurd (Except.ok.inj hlook).symm declined
    | some extract =>
      obtain ⟨hdefines, hextract⟩ := (definedBy?_eq_some hc).mp hextract
      obtain ⟨source, hsource, hlook⟩ := bind_eq_ok.mp hlook
      dsimp only at hlook
      split at hlook
      · exact absurd (Except.ok.inj hlook).symm declined
      · next position hposition =>
        obtain ⟨concatTy, -, hlook⟩ := bind_eq_ok.mp hlook
        obtain ⟨paddedTy, -, hlook⟩ := bind_eq_ok.mp hlook
        split at hlook
        · exact absurd (Except.ok.inj hlook).symm declined
        · next shuffle hshuffle =>
          obtain ⟨bits, -, hshuffle⟩ := Option.bind_eq_some_iff.mp hshuffle
          obtain ⟨ty, -, hlook⟩ := bind_eq_ok.mp hlook
          obtain ⟨o, ho, hlook⟩ := bind_eq_ok.mp hlook
          obtain rfl := eq_of_source_eq_ok ho
          obtain rfl := Except.ok.inj hlook
          exact ⟨factor, source, position, shuffle, bits, ty, concatTy, _,
            ⟨splat, v, ⟨hsplat, lane, extract, operandAt_eq_ok.mp hlane, hdefines, hextract,
              operandAt_eq_ok.mp hsource, hposition⟩, hv, hside⟩, hshuffle, hperform⟩

section

variable (hscene : Scene g gone func) (hat : g.Arrives func entry args op ρ)
  (hargs : List.Forall₂ (fun v x => x.Normal (g.value v).ty) (g.argsOf entry) args)
  (htyped : g.SplatsTyped func)
include hscene hat hargs htyped

/-- The factor that is kept, times the lane of the source, is the product of the two factors. -/
theorem SplatsFactor.multipliesOut {acc : ValueId} {s s' : Shuffle} {bits : Nat}
    (h : g.SplatsFactor first rhs factor source position)
    (hmul : g.MultipliesPadded op first rhs acc)
    (hfirst : (g.value first).ty = .vector n (.int width sign))
    (hrhs : (g.value rhs).ty = .vector n (.int width sign))
    (hx : ρ.get? first = some (.ofInts x)) (hy : ρ.get? rhs = some (.ofInts y))
    (hsel : splatShuffle? bits position s = some s') :
    ∃ left right, ρ.get? factor = some left ∧ ρ.get? source = some right ∧
      s'.MultipliesOut left.lanes right.lanes fun i => x i * y i := by
  have before : ∀ {o d v}, o ∈ g.opsIn entry → v ∈ g.operands o → v ∈ g.results d →
      Precedes (g.opsIn entry) d o := hscene.precedes_of_mem_operands hat.isEntry
  obtain ⟨splat, v, hsplat, hv, ⟨rfl, rfl⟩ | ⟨rfl, rfl⟩⟩ := h
  -- The factor is on the left behind the padding, or it is on the right.
  · obtain ⟨padded, concat, hpadded, hconcat, -, hread⟩ := hmul.left
    have hp := before hat.mem (List.mem_of_getElem? hpadded) hconcat
    obtain ⟨right, b, hright, hb, hall⟩ := hsplat.lanes hscene hat hargs htyped
      ((before hp.mem_left (List.mem_of_getElem? hread) hv).trans
        (hscene.consistent.placedOnce entry) hp) hv hfirst hx
    refine ⟨_, right, hy, hright, Shuffle.multipliesOut_of_splatShuffle? hsel hb fun i => ?_⟩
    rw [hall i, Int.mul_comm]
  · obtain ⟨right, b, hright, hb, hall⟩ := hsplat.lanes hscene hat hargs htyped
      (before hat.mem (List.mem_of_getElem? hmul.right) hv) hv hrhs hy
    refine ⟨_, right, hx, hright, Shuffle.multipliesOut_of_splatShuffle? hsel hb fun i => ?_⟩
    rw [hall i]

/-- Take any multiply-add that reads its lanes in order and that a splat is folded into. The new
one reads the factor that is kept, padded, and the vector that the lane of the splat was
extracted from. With its selection they multiply out, in each lane, to what the old factors do.
Nothing is said of a multiply-add with a selection: the new selection takes its place. -/
theorem foldBroadcastToFma_keeps_products {acc : ValueId}
    (hmul : g.MultipliesPadded op first rhs acc)
    (hrun : foldBroadcastToFma.run g op sizes = .ok (g', sizes', .matched edits))
    (hfirst : (g.value first).ty = .vector n (.int width sign))
    (hrhs : (g.value rhs).ty = .vector n (.int width sign))
    (hx : ρ.get? first = some (.ofInts x)) (hy : ρ.get? rhs = some (.ofInts y))
    (horder : (Shuffle.ofAttrs (g.attrs op)).z.start = "")
    (hw : (Shuffle.ofAttrs (g.attrs op)).MultipliesOut (RtValue.ofInts x).lanes
      (RtValue.ofInts y).lanes w) :
    ∃ factor source left right shuffle ty concatTy fmsub,
      (Decision.follow (foldedFmaPlan ty concatTy ⟨.value factor, (g.value factor).ty⟩
        (.value source) (.value acc) shuffle fmsub)).perform g = (g', .matched edits) ∧
      ρ.get? factor = some left ∧ ρ.get? source = some right ∧
        shuffle.MultipliesOut left.lanes right.lanes w := by
  obtain ⟨factor, source, position, shuffle, bits, ty, concatTy, fmsub, hsplat, hsel, hperform⟩ :=
    foldBroadcastToFma_folds hscene.consistent hmul hrun
  obtain ⟨left, right, hleft, hright, hout⟩ :=
    hsplat.multipliesOut hscene hat hargs htyped hmul hfirst hrhs hx hy hsel
  -- The multiply-add reads in order, so what it multiplies out is the plain products.
  obtain rfl := (Shuffle.multipliesOut_iff_of_inOrder horder).mp hw
  exact ⟨factor, source, left, right, shuffle, ty, concatTy, fmsub, hperform, hleft, hright, hout⟩

end

end Graph

end SimdLowering
