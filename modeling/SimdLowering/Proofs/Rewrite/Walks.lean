/-
What a walk visits.

A walk hands its state from one call of the visitor to the next, and what the visitor answers
decides which operations are visited at all. So what is visited cannot be read off the nesting
alone. It can be read off the answers: it is the pre-order listing without what is nested in the
operations that were passed over, up to the first answer that stops the walk. Here the calls are
recorded by the visitor itself, and this is proved of the record.

The walk drops what it passes over because it does not look there, and the listing drops it by
name. The two agree where nothing that is listed elsewhere has the same name, that is, where the
subtrees of two operations with one holder have nothing in common. This is so in a finite nesting:
of two operations above a third one, one is above the other, and if they have one holder then an
operation is above itself.
-/
import SimdLowering.Proofs.Graph.Scopes
import SimdLowering.Proofs.Rewrite.Verification

set_option autoImplicit false

namespace SimdLowering

namespace Graph

variable {g : Graph} {gone : List OpId} {root o p q x : OpId} {b : BlockId} {r : RegionId}
  {n k d : Nat}

/-! ## Siblings -/

/-- The operation that holds another one. -/
def holder? (g : Graph) (x : OpId) : Option OpId :=
  ((g.blockOf? x).bind g.regionOf?).bind g.ownerOf?

/-- What lies directly inside of an operation has that operation for its holder. -/
theorem mem_innerOps_iff_holder? (hn : NestingAgrees g) :
    x ∈ g.innerOps o ↔ g.holder? x = some o := by
  simp only [mem_innerOps, holder?, Option.bind_eq_some_iff, hn.places, hn.encloses, hn.owns]
  constructor
  · rintro ⟨r, b, hr, hb, hx⟩
    exact ⟨r, ⟨b, hx, hb⟩, hr⟩
  · rintro ⟨r, ⟨b, hx, hb⟩, hr⟩
    exact ⟨r, b, hr, hb, hx⟩

/-- Two operations with one holder, or without any. -/
def Siblings (g : Graph) (p q : OpId) : Prop := p ≠ q ∧ g.holder? p = g.holder? q

/-- To be siblings is mutual. -/
theorem Siblings.symm (h : g.Siblings p q) : g.Siblings q p := ⟨h.1.symm, h.2.symm⟩

/-- In a finite nesting an operation is not above a sibling. -/
theorem Siblings.not_within (h : g.Siblings p q) (hn : NestingAgrees g)
    (finite : g.NestsFinitely p) : ¬ g.Within k p q := by
  intro hw
  cases hw with
  | self => exact h.1 rfl
  | deeper hw hr hb hq =>
    -- Whoever holds the sibling is below the operation, and holds the operation as well.
    have hq := (mem_innerOps_iff_holder? hn).mp (mem_innerOps.mpr ⟨_, _, hr, hb, hq⟩)
    obtain ⟨s, c, hs, hc, hp⟩ := mem_innerOps.mp ((mem_innerOps_iff_holder? hn).mpr (h.2.trans hq))
    apply (nestsFinitely_iff hn).mp finite
    exact inside_iff_exists_within.mpr ⟨_, .deeper hw hs hc hp⟩

/-- In a finite nesting siblings have nothing below them in common. -/
theorem Siblings.disjoint (h : g.Siblings p q) (hn : NestingAgrees g) (hp : g.NestsFinitely p)
    (hq : g.NestsFinitely q) (hpx : g.Within n p x) : ¬ g.Within k q x := by
  -- Both would be above the same operation, and so one of them above the other.
  intro hqx
  rcases Nat.le_total n k with hle | hle
  · obtain ⟨j, hw⟩ := hpx.above hn hqx hle
    exact h.symm.not_within hn hq hw
  · obtain ⟨j, hw⟩ := hqx.above hn hpx hle
    exact h.not_within hn hp hw

/-- Operations of one block are siblings. -/
theorem siblings_opsIn (hn : NestingAgrees g) (b : BlockId) : (g.opsIn b).Pairwise g.Siblings := by
  refine (hn.placedOnce b).imp_of_mem fun {p q} hp hq hne => ⟨hne, ?_⟩
  rw [holder?, holder?, (hn.places p b).mp hp, (hn.places q b).mp hq]

/-- So are those of one region. -/
theorem siblings_opsOfRegion (hn : NestingAgrees g) (r : RegionId) :
    (g.opsOfRegion r).Pairwise g.Siblings := by
  have hregion : ∀ p ∈ g.opsOfRegion r, (g.blockOf? p).bind g.regionOf? = some r := by
    intro p hp
    obtain ⟨b, hb, hp⟩ := List.mem_flatMap.mp hp
    rw [(hn.places p b).mp hp, Option.bind_some, (hn.encloses b r).mp hb]
  refine (pairwise_opsOfRegion hn r).imp_of_mem fun {p q} hp hq hne => ⟨hne.1, ?_⟩
  rw [holder?, holder?, hregion p hp, hregion q hq]

/-- And those that lie directly inside of one operation. -/
theorem siblings_innerOps (hn : NestingAgrees g) (o : OpId) :
    (g.innerOps o).Pairwise g.Siblings := by
  refine (pairwise_innerOps hn o).imp_of_mem fun hp hq hne => ⟨hne.1, ?_⟩
  rw [(mem_innerOps_iff_holder? hn).mp hp, (mem_innerOps_iff_holder? hn).mp hq]

/-- What nests finitely holds only what nests finitely. -/
theorem NestsFinitely.of_mem_innerOps (finite : g.NestsFinitely o) (hp : p ∈ g.innerOps o) :
    g.NestsFinitely p := by
  obtain ⟨r, b, hr, hb, hp⟩ := mem_innerOps.mp hp
  exact finite.inside ⟨b, holdsBlock_of_mem_regionsOf hr hb, hp⟩

/-- To a depth a walk lists what lies inside within that depth. -/
theorem mem_preorderWithin_iff : x ∈ g.preorderWithin d o ↔ ∃ n, n < d ∧ g.Within n o x :=
  (g.preorderWithin_perm d o).mem_iff.trans mem_postorderWithin

/-- Neither holds the other, at whatever depth. -/
def Apart (g : Graph) (x y : OpId) : Prop := x ∉ g.nested y ∧ y ∉ g.nested x

/-- What is listed below an operation is apart from what is listed below a sibling. -/
theorem Siblings.apart (h : g.Siblings p q) (hn : NestingAgrees g) (hp : g.NestsFinitely p)
    (hq : g.NestsFinitely q) :
    ∀ x ∈ g.preorderWithin d p, ∀ y ∈ g.preorderWithin d q, g.Apart x y := by
  intro x hx y hy
  obtain ⟨n, -, hx⟩ := mem_preorderWithin_iff.mp hx
  obtain ⟨k, -, hy⟩ := mem_preorderWithin_iff.mp hy
  refine ⟨fun hxy => ?_, fun hyx => ?_⟩
  · obtain ⟨j, hw⟩ := inside_iff_exists_within.mp (mem_nested_iff.mp hxy)
    exact h.disjoint hn hp hq hx (hy.trans hw)
  · obtain ⟨j, hw⟩ := inside_iff_exists_within.mp (mem_nested_iff.mp hyx)
    exact h.disjoint hn hp hq (hx.trans hw) hy

/-- What lies inside of one sibling does not lie inside of another. -/
theorem siblings_apart (hn : NestingAgrees g) {l : List OpId} (hl : l.Pairwise g.Siblings)
    (finite : ∀ o ∈ l, g.NestsFinitely o) : l.Pairwise fun p q =>
      ∀ x ∈ g.preorderWithin d p, ∀ y ∈ g.preorderWithin d q, g.Apart x y :=
  hl.imp_of_mem fun hp hq h => h.apart hn (finite _ hp) (finite _ hq)

end Graph

/-! ## Calls -/

section Calls

variable {σ β : Type}

/-- The visitor passes over what the operation holds. -/
def Visit.isSkip : Visit β → Bool
  | .skip => true
  | _ => false

/-- A visitor that keeps a record of its calls, each with the answer. -/
def recording (f : OpId → σ → σ × Visit β) (o : OpId) (s : σ × List (OpId × Visit β)) :
    (σ × List (OpId × Visit β)) × Visit β :=
  (((f o s.1).1, s.2 ++ [(o, (f o s.1).2)]), (f o s.1).2)

/-- Called in this order from the first state on, the visitor gives these answers and ends in the
second state. -/
inductive Replies (f : OpId → σ → σ × Visit β) : σ → List (OpId × Visit β) → σ → Prop
  | nil (s : σ) : Replies f s [] s
  | cons {s s' t : σ} {o : OpId} {answer : Visit β} {calls : List (OpId × Visit β)} :
      f o s = (s', answer) → Replies f s' calls t → Replies f s ((o, answer) :: calls) t

/-- A walk goes on from the state in which it stopped. -/
theorem Replies.append {f : OpId → σ → σ × Visit β} {s s' t : σ}
    {calls calls' : List (OpId × Visit β)} (h : Replies f s calls s') (h' : Replies f s' calls' t) :
    Replies f s (calls ++ calls') t := by
  induction h with
  | nil => exact h'
  | cons hf _ ih => exact .cons hf (ih h')

/-- The operations whose calls were answered with `skip`. -/
def passedOver (calls : List (OpId × Visit β)) : List OpId :=
  (calls.filter fun c => c.2.isSkip).map Prod.fst

/-- What is passed over is counted call by call. -/
theorem passedOver_append (calls calls' : List (OpId × Visit β)) :
    passedOver (calls ++ calls') = passedOver calls ++ passedOver calls' := by
  rw [passedOver, List.filter_append, List.map_append]
  rfl

/-- A call that stops the walk passes over nothing. -/
theorem passedOver_stopped (calls : List (OpId × Visit β)) (o : OpId) (b : β) :
    passedOver (calls ++ [(o, .stop b)]) = passedOver calls := by
  rw [passedOver_append]
  exact List.append_nil _

/-- What is passed over has been called on. -/
theorem mem_of_mem_passedOver {calls : List (OpId × Visit β)} {o : OpId}
    (h : o ∈ passedOver calls) : o ∈ calls.map Prod.fst :=
  List.map_subset _ (List.filter_subset_self _) h

end Calls

namespace Graph

variable {σ β α : Type} {g : Graph} {gone : List OpId} {root o p q x : OpId} {b : BlockId}
  {r : RegionId} {d : Nat} {listing listing' skipped skipped' : List OpId}
  {calls calls' : List (OpId × Visit β)} {answer : β} {out : Option β}

/-- What is left of a listing without what is nested in the operations that are passed over. -/
def without (g : Graph) (listing skipped : List OpId) : List OpId :=
  listing.filter fun x => ∀ p ∈ skipped, x ∉ g.nested p

/-- Nothing is left out where nothing is passed over. -/
theorem without_nil (g : Graph) (listing : List OpId) : g.without listing [] = listing := by
  simp [without]

/-- Where each part of a listing has nothing of what the other part passes over, each is left as
it would be alone. -/
theorem without_append (h : ∀ x ∈ listing, ∀ p ∈ skipped', x ∉ g.nested p)
    (h' : ∀ x ∈ listing', ∀ p ∈ skipped, x ∉ g.nested p) :
    g.without (listing ++ listing') (skipped ++ skipped') =
      g.without listing skipped ++ g.without listing' skipped' := by
  rw [without, List.filter_append]
  congr 1
  · apply List.filter_congr
    intro x hx
    simp only [List.forall_mem_append, decide_eq_decide]
    exact and_iff_left (h x hx)
  · apply List.filter_congr
    intro x hx
    simp only [List.forall_mem_append, decide_eq_decide]
    exact and_iff_right (h' x hx)

/-! ## Truncated listings -/

/-- The calls follow the listing without what is nested in the operations that they pass over.
They go through all of it and nothing comes out, or they go on up to the first one that is answered
with `stop`, and that answer comes out. -/
inductive Truncates (g : Graph) (listing : List OpId) :
    List (OpId × Visit β) → Option β → Prop
  | complete {calls : List (OpId × Visit β)} (proceeds : ∀ o b, (o, .stop b) ∉ calls)
      (called : calls.map Prod.fst = g.without listing (passedOver calls)) :
      Truncates g listing calls none
  | stopped {calls : List (OpId × Visit β)} {o : OpId} {b : β}
      (proceeds : ∀ o b, (o, .stop b) ∉ calls)
      (called : calls.map Prod.fst ++ [o] <+: g.without listing (passedOver calls)) :
      Truncates g listing (calls ++ [(o, .stop b)]) (some b)

namespace Truncates

/-- Only what is listed is passed over. -/
theorem passedOver_subset (h : g.Truncates listing calls out) : passedOver calls ⊆ listing := by
  have kept : ∀ skipped, g.without listing skipped ⊆ listing :=
    fun skipped => List.filter_subset_self _
  intro p hp
  cases h with
  | complete _ called =>
    apply kept
    rw [← called]
    exact mem_of_mem_passedOver hp
  | stopped _ called =>
    rw [passedOver_stopped] at hp
    apply kept
    apply called.subset
    exact List.mem_append_left _ (mem_of_mem_passedOver hp)

/-- Where a walk was stopped, it makes no difference what would have come after. -/
theorem append_right (h : g.Truncates listing calls (some answer)) :
    g.Truncates (listing ++ listing') calls (some answer) := by
  cases h with
  | stopped proceeds called =>
    refine .stopped proceeds (called.trans ?_)
    rw [without, without, List.filter_append]
    exact List.prefix_append ..

/-- Where a walk went through a listing, it goes on with the next one. -/
theorem append (h : g.Truncates listing calls none) (h' : g.Truncates listing' calls' out)
    (hleft : ∀ x ∈ listing, ∀ p ∈ passedOver calls', x ∉ g.nested p)
    (hright : ∀ x ∈ listing', ∀ p ∈ passedOver calls, x ∉ g.nested p) :
    g.Truncates (listing ++ listing') (calls ++ calls') out := by
  cases h with
  | complete hgo hall =>
    cases h' with
    | complete hgo' hall' =>
      refine .complete (fun o b hmem => ?_) ?_
      · exact (List.mem_append.mp hmem).elim (hgo o b) (hgo' o b)
      · rw [List.map_append, hall, hall', passedOver_append, without_append hleft hright]
    | @stopped calls' o b hgo' hall' =>
      rw [← List.append_assoc]
      refine .stopped (fun o b hmem => ?_) ?_
      · exact (List.mem_append.mp hmem).elim (hgo o b) (hgo' o b)
      · rw [passedOver_stopped] at hleft
        rw [List.map_append, hall, passedOver_append, without_append hleft hright,
          List.append_assoc]
        exact (List.prefix_append_right_inj _).mpr hall'

end Truncates

/-! ## Walks -/

/-- The walk follows the listing, whatever the visitor is. If the visitor keeps a record, the walk
goes as it would without, and the record is of calls that truncate the listing. -/
def Traverses (g : Graph) (listing : List OpId)
    (walk : (σ β : Type) → (OpId → σ → σ × Visit β) → σ → σ × Option β) : Prop :=
  ∀ (σ β : Type) (f : OpId → σ → σ × Visit β) (s : σ) (record : List (OpId × Visit β)),
    ∃ calls, walk _ _ (recording f) (s, record) =
        (((walk _ _ f s).1, record ++ calls), (walk _ _ f s).2) ∧
      Replies f s calls (walk _ _ f s).1 ∧ g.Truncates listing calls (walk _ _ f s).2

/-- A walk over nothing calls nobody. -/
theorem traverses_nil (g : Graph) : g.Traverses [] fun _ _ _ s => (s, none) := by
  intro σ β f s record
  refine ⟨[], ?_, .nil s, .complete (fun o b => List.not_mem_nil) rfl⟩
  rw [List.append_nil]

/-- Walks that follow their listings, made one after the other, follow the listings put together,
if these are apart. -/
theorem Traverses.each {listingOf : α → List OpId}
    {walkOf : α → (σ β : Type) → (OpId → σ → σ × Visit β) → σ → σ × Option β} {l : List α}
    (h : ∀ a ∈ l, g.Traverses (listingOf a) (walkOf a))
    (apart : l.Pairwise fun a a' => ∀ x ∈ listingOf a, ∀ y ∈ listingOf a', g.Apart x y) :
    g.Traverses (l.flatMap listingOf) fun σ β f => visitEach (fun a => walkOf a σ β f) l := by
  induction l with
  | nil => exact traverses_nil g
  | cons a l ih =>
    have ih := ih (fun a' ha' => h a' (List.mem_cons_of_mem _ ha')) apart.of_cons
    have hapart : ∀ x ∈ listingOf a, ∀ y ∈ l.flatMap listingOf, g.Apart x y := by
      intro x hx y hy
      obtain ⟨a', ha', hy⟩ := List.mem_flatMap.mp hy
      exact List.rel_of_pairwise_cons apart ha' x hx y hy
    intro σ β f s record
    obtain ⟨calls, hrecord, hreplies, htruncates⟩ :=
      h a (List.mem_cons_self ..) σ β f s record
    simp only [visitEach, List.flatMap_cons]
    generalize walkOf a σ β f s = result at hrecord hreplies htruncates
    obtain ⟨s', out⟩ := result
    simp only at hrecord hreplies htruncates
    rw [hrecord]
    cases out with
    | some b => exact ⟨calls, rfl, hreplies, htruncates.append_right⟩
    | none =>
      -- The first walk went through, and the rest starts from its state and its record.
      obtain ⟨calls', hrecord', hreplies', htruncates'⟩ := ih σ β f s' (record ++ calls)
      refine ⟨calls ++ calls', ?_, hreplies.append hreplies', ?_⟩
      · rw [← List.append_assoc]
        exact hrecord'
      · refine htruncates.append htruncates' (fun x hx p hp => ?_) (fun x hx p hp => ?_)
        · exact (hapart x hx p (htruncates'.passedOver_subset hp)).1
        · exact (hapart p (htruncates.passedOver_subset hp) x hx).2

/-- A walk asks the visitor about the operation first and then does what it says. -/
theorem Traverses.enter {walk : (σ β : Type) → (OpId → σ → σ × Visit β) → σ → σ × Option β}
    (h : g.Traverses listing walk) (acyclic : ¬ g.Inside o o)
    (hinside : ∀ x ∈ listing, g.Inside o x) :
    g.Traverses (o :: listing) fun σ β f s =>
      match f o s with
      | (s, .stop b) => (s, some b)
      | (s, .skip) => (s, none)
      | (s, .descend) => walk σ β f s := by
  intro σ β f s record
  simp only [recording]
  generalize hf : f o s = result
  obtain ⟨s', answer⟩ := result
  cases answer with
  | stop b =>
    refine ⟨[(o, .stop b)], rfl, .cons hf (.nil s'), ?_⟩
    have hnone : ∀ o b, (o, .stop b) ∉ ([] : List (OpId × Visit β)) := fun o b => List.not_mem_nil
    exact .stopped hnone ⟨listing, (without_nil g _).symm⟩
  | skip =>
    refine ⟨[(o, .skip)], rfl, .cons hf (.nil s'), .complete ?_ ?_⟩
    · simp
    · have hkept : o ∉ g.nested o := fun hmem => acyclic (mem_nested_iff.mp hmem)
      have hdropped : ∀ x ∈ listing, x ∈ g.nested o := fun x hx => mem_nested_iff.mpr (hinside x hx)
      have hpassed : passedOver [(o, (.skip : Visit β))] = [o] := rfl
      rw [hpassed, without, List.filter_cons_of_pos (by simpa using hkept),
        List.filter_eq_nil_iff.mpr (by simpa using hdropped)]
      rfl
  | descend =>
    obtain ⟨calls, hrecord, hreplies, htruncates⟩ := h σ β f s' (record ++ [(o, .descend)])
    refine ⟨(o, .descend) :: calls, ?_, .cons hf hreplies, ?_⟩
    · simp only [hrecord, List.append_assoc, List.singleton_append]
    · -- The operation is above what is passed over, and so not nested in it.
      have hself : g.Truncates [o] [(o, .descend)] (none : Option β) := by
        refine .complete ?_ (without_nil g _).symm
        simp
      refine hself.append htruncates (fun x hx p hp hmem => ?_) fun x _ p hp => ?_
      · obtain rfl := List.mem_singleton.mp hx
        have hp := hinside p (htruncates.passedOver_subset hp)
        exact acyclic (hp.trans (mem_nested_iff.mp hmem))
      · exact absurd hp List.not_mem_nil

/-- In a finite nesting, the listing of an operation within a depth is followed by the walk within
the same depth. -/
theorem traverses_walkWithin (hn : NestingAgrees g) (finite : g.NestsFinitely o) :
    g.Traverses (g.preorderWithin d o) fun _ _ f => g.walkWithin f d o := by
  induction d generalizing o with
  | zero => exact traverses_nil g
  | succ d ih =>
    have hfinite : ∀ p ∈ g.innerOps o, g.NestsFinitely p := fun p hp => finite.of_mem_innerOps hp
    have hinner := Traverses.each (fun p hp => ih (hfinite p hp))
      (siblings_apart hn (siblings_innerOps hn o) hfinite)
    refine hinner.enter ((nestsFinitely_iff hn).mp finite) fun x hx => ?_
    obtain ⟨p, hp, hx⟩ := List.mem_flatMap.mp hx
    obtain ⟨k, -, hw⟩ := mem_preorderWithin_iff.mp hx
    exact inside_iff_exists_innerOps.mpr ⟨k, p, hp, hw⟩

/-- What a block holds, each operation with what is nested in it, in pre-order. -/
def preorderOfBlock (g : Graph) (b : BlockId) : List OpId := (g.opsIn b).flatMap g.preorder

/-- What a region holds, block by block. -/
def preorderOfRegion (g : Graph) (r : RegionId) : List OpId :=
  (g.blocksIn r).flatMap g.preorderOfBlock

/-- A region is listed operation by operation. -/
theorem preorderOfRegion_eq (g : Graph) (r : RegionId) :
    g.preorderOfRegion r = (g.opsOfRegion r).flatMap g.preorder := by
  rw [opsOfRegion, List.flatMap_assoc]
  rfl

/-- And what lies under a root region by region. -/
theorem nested_eq (g : Graph) (root : OpId) :
    g.nested root = (g.regionsOf root).flatMap g.preorderOfRegion := by
  rw [nested, innerOps, List.flatMap_assoc]
  exact List.flatMap_congr fun r _ => (g.preorderOfRegion_eq r).symm

/-- Visiting one list after the other ends with the first that breaks. -/
theorem visitEach_append {visit : α → σ → σ × Option β} (l l' : List α) (s : σ) :
    visitEach visit (l ++ l') s =
      match visitEach visit l s with
      | (s, some b) => (s, some b)
      | (s, none) => visitEach visit l' s := by
  induction l generalizing s with
  | nil => rfl
  | cons a l ih =>
    rw [List.cons_append, visitEach, visitEach]
    rcases visit a s with ⟨s', none | b⟩
    · exact ih s'
    · rfl

/-- To visit the members of lists one list after the other is to visit them all. -/
theorem visitEach_flatMap {γ : Type} {visit : α → σ → σ × Option β} {membersOf : γ → List α}
    (l : List γ) (s : σ) : visitEach (fun c => visitEach visit (membersOf c)) l s =
      visitEach visit (l.flatMap membersOf) s := by
  induction l generalizing s with
  | nil => rfl
  | cons c l ih =>
    rw [visitEach, List.flatMap_cons, visitEach_append]
    rcases visitEach visit (membersOf c) s with ⟨s', none | b⟩
    · exact ih s'
    · rfl

section

variable (hn : NestingAgrees g)
include hn

/-- Siblings are walked one after the other. -/
theorem traverses_siblings {l : List OpId} (hl : l.Pairwise g.Siblings)
    (finite : ∀ o ∈ l, g.NestsFinitely o) :
    g.Traverses (l.flatMap g.preorder) fun _ _ f => visitEach (g.walkOp f) l :=
  .each (fun o ho => traverses_walkWithin hn (finite o ho)) (siblings_apart hn hl finite)

/-- A walk from an operation follows its listing. -/
theorem traverses_walkOp (finite : g.NestsFinitely o) :
    g.Traverses (g.preorder o) fun _ _ f => g.walkOp f o :=
  traverses_walkWithin hn finite

/-- So does a walk over a block. -/
theorem traverses_walkBlock (finite : ∀ o ∈ g.opsIn b, g.NestsFinitely o) :
    g.Traverses (g.preorderOfBlock b) fun _ _ f => g.walkBlock f b :=
  traverses_siblings hn (siblings_opsIn hn b) finite

/-- And one over a region. -/
theorem traverses_walkRegion (finite : ∀ o ∈ g.opsOfRegion r, g.NestsFinitely o) :
    g.Traverses (g.preorderOfRegion r) fun _ _ f => g.walkRegion f r := by
  have hwalk : ∀ (σ β : Type) (f : OpId → σ → σ × Visit β),
      g.walkRegion f r = visitEach (g.walkOp f) (g.opsOfRegion r) := by
    intro σ β f
    funext s
    exact visitEach_flatMap _ s
  simp only [preorderOfRegion_eq, hwalk]
  exact traverses_siblings hn (siblings_opsOfRegion hn r) finite

end

/-! ## What the walks are for -/

/-- The operations of a kind are collected in the order of the listing. -/
theorem collectKind_eq (g : Graph) (root : OpId) (kind : OpKind) :
    g.collectKind root kind = (g.nested root).filter fun o => g.kind o = kind := by
  -- Collecting appends what is of the kind, so from an empty list the filter is left.
  have hfold : ∀ (l : List OpId) (found : List OpId), l.foldlM (fun found o =>
      (Except.ok (if g.kind o = kind then found ++ [o] else found) : Except Empty _)) found =
        .ok (found ++ l.filter fun o => g.kind o = kind) := by
    intro l
    induction l with
    | nil => simp [pure, Except.pure]
    | cons o l ih =>
      intro found
      rw [List.foldlM_cons]
      change l.foldlM _ _ = _
      rw [ih]
      by_cases hkind : g.kind o = kind <;> simp [hkind]
  let collect : OpId → List OpId → List OpId × Visit Empty :=
    fun o found => (if g.kind o = kind then found ++ [o] else found, .descend)
  have hwalk : walkRun (g.walkInside collect root []) = _ :=
    walkRun_walkInside fun o found => by simp [collect]
  have hfound := hwalk.trans (hfold (g.nested root) [])
  change (g.walkInside collect root []).1 = _
  generalize g.walkInside collect root [] = result at hfound ⊢
  obtain ⟨found, none | b⟩ := result
  · exact Except.ok.inj hfound
  · exact b.elim

/-- Take any graph with a history. To walk an operation whose nesting is finite, a block that holds
only such operations, or a region that does, is to follow its pre-order listing, in which an
operation is before what its regions hold, block by block: with whatever visitor and state, the
calls are those of the listing without what is nested in the operations that were passed over, up
to the first call that was answered with `stop`, which comes out. So the operations of a kind that
are collected under a root, and those that verification reports, are in the order of the listing,
which has everything under the root once and nothing else: the former are all that have the kind,
and the latter are all on which the target has the verdict that they are illegal, when it is asked
for its verdicts in this order. Where the verdicts do not depend on which of the sizes are known
that one can come to know, the order of asking makes no difference. -/
theorem walks_truncate_preorder {edits : List Edit}
    (history : Edit.replay edits = .ok (g, gone)) :
    (∀ o, g.NestsFinitely o →
      g.preorder o = o :: (g.regionsOf o).flatMap g.preorderOfRegion ∧
      g.Traverses (g.preorder o) fun _ _ f => g.walkOp f o) ∧
    (∀ b, (∀ o ∈ g.opsIn b, g.NestsFinitely o) →
      g.Traverses (g.preorderOfBlock b) fun _ _ f => g.walkBlock f b) ∧
    (∀ r, (∀ b ∈ g.blocksIn r, ∀ o ∈ g.opsIn b, g.NestsFinitely o) →
      g.Traverses (g.preorderOfRegion r) fun _ _ f => g.walkRegion f r) ∧
    ∀ root, g.NestsFinitely root →
      (g.preorder root = root :: g.nested root ∧ (g.nested root).Nodup ∧
        ∀ o, o ∈ g.nested root ↔ g.Inside root o) ∧
      (∀ kind, g.collectKind root kind = (g.nested root).filter fun o => g.kind o = kind) ∧
      (∀ (t : ConversionTarget) (c : AccessSizes), t.verify g root c =
        (t.verdicts g (g.nested root) c).map fun s => (g.refused s.1, s.2)) ∧
      ∀ (t : ConversionTarget) (verdict : OpId → Legality) (K : AccessSizes → Prop),
        (∀ o, g.Inside root o → ∀ c, K c →
          ∃ c', t.legality g o c = .ok (verdict o, c') ∧ K c') →
        ∀ c, K c → ∃ c', K c' ∧ t.verify g root c =
          .ok (((g.nested root).filter fun o => verdict o = .illegal).map
            fun o => ⟨o, g.kind o⟩, c') := by
  have hc := consistent_of_replay history
  have hn := hc.toNestingAgrees
  refine ⟨fun o finite => ⟨?_, traverses_walkOp hn finite⟩, fun b => traverses_walkBlock hn,
    fun r finite => ?_, fun root finite => ?_⟩
  · rw [preorder_eq_of_finite hn finite, nested_eq]
  · refine traverses_walkRegion hn fun o ho => ?_
    obtain ⟨b, hb, ho⟩ := List.mem_flatMap.mp ho
    exact finite b hb o ho
  -- Each collection is a filter of the operations in pre-order.
  · have acyclic := (nestsFinitely_iff hn).mp finite
    refine ⟨⟨preorder_eq_of_finite hn finite, nodup_nested hc acyclic, fun o => mem_nested_iff⟩,
      g.collectKind_eq root, fun t c => ConversionTarget.verify_eq_verdicts,
      fun t verdict K hverdict c hK => ?_⟩
    apply ConversionTarget.verify_of_verdict K _ hK
    intro o ho
    exact hverdict o (mem_nested_iff.mp ho)

/-- Counts its calls, passes over the inner function, and stops at the fourth call. -/
def fourCalls (o : OpId) (n : Nat) : Nat × Visit OpId :=
  (n + 1, if n = 3 then .stop o else if o = ⟨3⟩ then .skip else .descend)

/-- The sum in the inner function is passed over on this walk. Verification does not miss it. -/
theorem walks_truncate_preorder_strayReads :
    Edit.replay strayReadHistory = .ok (strayReadGraph, [⟨6⟩]) ∧
    strayReadGraph.NestsFinitely ⟨5⟩ ∧
    strayReadGraph.preorder ⟨5⟩ = [⟨5⟩, ⟨0⟩, ⟨3⟩, ⟨2⟩, ⟨1⟩, ⟨4⟩] ∧
    strayReadGraph.walkOp (recording fourCalls) ⟨5⟩ (0, []) =
      ((4, [(⟨5⟩, .descend), (⟨0⟩, .descend), (⟨3⟩, .skip), (⟨1⟩, .stop ⟨1⟩)]), some ⟨1⟩) ∧
    strayReadGraph.Truncates [⟨5⟩, ⟨0⟩, ⟨3⟩, ⟨2⟩, ⟨1⟩, ⟨4⟩]
      [(⟨5⟩, .descend), (⟨0⟩, .descend), (⟨3⟩, .skip), (⟨1⟩, .stop (⟨1⟩ : OpId))] (some ⟨1⟩) ∧
    strayReadGraph.collectKind ⟨5⟩ .constant = [⟨0⟩, ⟨1⟩] ∧
    (ConversionTarget.ofSettings [.illegalKind .addi]).verify strayReadGraph ⟨5⟩ .empty =
      .ok ([⟨⟨2⟩, .addi⟩], .empty) := by
  have history := strayReadGraph_history
  have finite := strayReadGraph_finite
  have hlisting : strayReadGraph.preorder ⟨5⟩ = [⟨5⟩, ⟨0⟩, ⟨3⟩, ⟨2⟩, ⟨1⟩, ⟨4⟩] := by cbv
  have hnested := strayReadGraph_nested
  have hwalk : strayReadGraph.walkOp (recording fourCalls) ⟨5⟩ (0, []) =
      ((4, [(⟨5⟩, .descend), (⟨0⟩, .descend), (⟨3⟩, .skip), (⟨1⟩, .stop ⟨1⟩)]), some ⟨1⟩) := by
    cbv
  obtain ⟨hop, -, -, hunder⟩ := walks_truncate_preorder history
  obtain ⟨calls, hrecord, -, htruncates⟩ := (hop ⟨5⟩ finite).2 Nat OpId fourCalls 0 []
  have hsame := hrecord.symm.trans hwalk
  simp only [List.nil_append, Prod.mk.injEq] at hsame
  rw [hlisting, hsame.1.2, hsame.2] at htruncates
  -- The target goes by the kind alone, so nothing becomes known of the sizes.
  let verdict : OpId → Legality := fun o =>
    if strayReadGraph.kind o = .addi then .illegal else .unknown
  have hverdict : ∀ o, strayReadGraph.Inside ⟨5⟩ o → ∀ c, c = AccessSizes.empty →
      ∃ c', (ConversionTarget.ofSettings [.illegalKind .addi]).legality strayReadGraph o c =
        .ok (verdict o, c') ∧ c' = AccessSizes.empty := by
    rintro o - c rfl
    refine ⟨_, ?_, rfl⟩
    by_cases hkind : strayReadGraph.kind o = .addi <;>
      simp [ConversionTarget.legality, ConversionTarget.kindLegality, ConversionTarget.ofSettings,
        ConversionTarget.configure, ConversionTarget.empty, verdict, hkind]
  obtain ⟨-, hcollect, -, hverify⟩ := hunder ⟨5⟩ finite
  obtain ⟨c', rfl, hverify⟩ := hverify _ verdict _ hverdict .empty rfl
  refine ⟨history, finite, hlisting, hwalk, htruncates, ?_, ?_⟩
  · rw [hcollect, hnested]
    cbv
  · rw [hverify, hnested]
    cbv

end Graph

end SimdLowering
