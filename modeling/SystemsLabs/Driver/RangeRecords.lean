/-
# SystemsLabs.Driver.RangeRecords -- the ranges that are live, however they are linked

What the edits of `add_range` and `remove_range` do is said here without regard to the shape of the
list: which ranges are live, what each holds, and how the tree leads to them (`Filed`), and which
links are set (`Entered`, `Dropped`).  `Filed.neighbours` is the search of `add_range`: the range that
it finds is the last one that starts at or below the payload.

`RangeList` and `RangeChains` add what they know of the links.
-/
import SystemsLabs.Driver.RangeSet
import SystemsLabs.Driver.SplayMap
import SystemsLabs.Theory.KeyedLists
import SystemsLabs.Theory.PointerPath

namespace SystemsLabs.Driver

set_option autoImplicit false

open Theory.KeyedLists Theory.PointerPath

namespace RangeSet

/-! ## Fields and links -/

def rangeAt (s : RangeSet) (p : Addr) : Range := (s.ranges.lookup p).getD default

def nextAt (s : RangeSet) (p : Addr) : Addr := (s.rangeAt p).next

def prevAt (s : RangeSet) (p : Addr) : Addr := (s.rangeAt p).prev

def loAt (s : RangeSet) (p : Addr) : Addr := (s.rangeAt p).lo

def hiAt (s : RangeSet) (p : Addr) : Addr := (s.rangeAt p).hi

def indexAt (s : RangeSet) (p : Addr) : Int := (s.rangeAt p).index

variable {s s' : RangeSet} {p q next prev lo hi z : Addr} {index : Int} {l pre post : List Addr}

theorem lookup_eq (live : p ∈ s.ranges) : s.ranges.lookup p = some (s.rangeAt p) := by
  obtain ⟨r, found⟩ := Option.isSome_iff_exists.mp (AList.lookup_isSome.mpr live)
  rw [rangeAt, found]
  rfl

theorem rangeAt_insert (r : Range) :
    rangeAt { s with ranges := s.ranges.insert p r } q = if q = p then r else s.rangeAt q := by
  unfold rangeAt
  split
  · next same => rw [same, AList.lookup_insert, Option.getD_some]
  · next other => rw [AList.lookup_insert_ne other]

/-- The edit of one link. -/
structure Linked (s s' : RangeSet) : Prop where
  live : ∀ q, q ∈ s'.ranges ↔ q ∈ s.ranges
  lo : s'.loAt = s.loAt
  hi : s'.hiAt = s.hiAt
  index : s'.indexAt = s.indexAt
  tree : s'.loTree = s.loTree

theorem Linked.refl (s : RangeSet) : Linked s s := ⟨fun _ => Iff.rfl, rfl, rfl, rfl, rfl⟩

theorem Linked.trans {s₁ s₂ : RangeSet} (first : Linked s s₁) (second : Linked s₁ s₂) : Linked s s₂ :=
  ⟨fun q => (second.live q).trans (first.live q), second.lo.trans first.lo, second.hi.trans first.hi,
    second.index.trans first.index, second.tree.trans first.tree⟩

theorem mem_insert_live {r : Range} (live : p ∈ s.ranges) : q ∈ s.ranges.insert p r ↔ q ∈ s.ranges := by
  rw [AList.mem_insert]
  exact or_iff_right_of_imp fun same => same ▸ live

theorem linkAfter_eq (s : RangeSet) (prev : Addr) (live : prev ≠ 0 → prev ∈ s.ranges) (p : Addr) :
    ∃ s', s.linkAfter prev p = some s' ∧ Linked s s' ∧ s'.list = (if prev = 0 then p else s.list) ∧
      (∀ q, s'.nextAt q = if q = prev ∧ prev ≠ 0 then p else s.nextAt q) ∧ s'.prevAt = s.prevAt := by
  unfold linkAfter
  split
  · next isNull => exact ⟨_, rfl, ⟨fun _ => Iff.rfl, rfl, rfl, rfl, rfl⟩, rfl, fun q => by simp [isNull]; rfl, rfl⟩
  · next nonnull =>
    have live := live nonnull
    refine ⟨{ s with ranges := s.ranges.insert prev { s.rangeAt prev with next := p } },
      by rw [setNext, lookup_eq live]; rfl, ⟨fun q => mem_insert_live live, ?_, ?_, ?_, rfl⟩, rfl, ?_, ?_⟩
    · funext q
      unfold loAt
      rw [rangeAt_insert]
      split <;> simp [*]
    · funext q
      unfold hiAt
      rw [rangeAt_insert]
      split <;> simp [*]
    · funext q
      unfold indexAt
      rw [rangeAt_insert]
      split <;> simp [*]
    · intro q
      unfold nextAt
      rw [rangeAt_insert]
      simp only [nonnull, not_false_eq_true, and_true, ne_eq]
      split <;> rfl
    · funext q
      unfold prevAt
      rw [rangeAt_insert]
      split <;> simp [*]

theorem linkBefore_eq (s : RangeSet) (next : Addr) (live : next ≠ 0 → next ∈ s.ranges) (p : Addr) :
    ∃ s', s.linkBefore next p = some s' ∧ Linked s s' ∧ s'.list = s.list ∧ s'.nextAt = s.nextAt ∧
      ∀ q, s'.prevAt q = if q = next ∧ next ≠ 0 then p else s.prevAt q := by
  unfold linkBefore
  split
  · next isNull => exact ⟨s, rfl, Linked.refl s, rfl, rfl, fun q => by simp [isNull]⟩
  · next nonnull =>
    have live := live nonnull
    refine ⟨{ s with ranges := s.ranges.insert next { s.rangeAt next with prev := p } },
      by rw [setPrev, lookup_eq live]; rfl, ⟨fun q => mem_insert_live live, ?_, ?_, ?_, rfl⟩, rfl, ?_, ?_⟩
    · funext q
      unfold loAt
      rw [rangeAt_insert]
      split <;> simp [*]
    · funext q
      unfold hiAt
      rw [rangeAt_insert]
      split <;> simp [*]
    · funext q
      unfold indexAt
      rw [rangeAt_insert]
      split <;> simp [*]
    · funext q
      unfold nextAt
      rw [rangeAt_insert]
      split <;> simp [*]
    · intro q
      unfold prevAt
      rw [rangeAt_insert]
      simp only [nonnull, not_false_eq_true, and_true, ne_eq]
      split <;> rfl

/-! ## The ranges and the tree -/

/-- The tree leads from the address of each payload to its range. -/
def Binds (s : RangeSet) (l : List Addr) (contents : SplayTree.Contents) : Prop :=
  ∀ k p, contents k = some p ↔ p ∈ l ∧ tkey (s.loAt p) = k

theorem binds_iff_keyed {contents : SplayTree.Contents} :
    s.Binds l contents ↔ Keyed (fun q => tkey (s.loAt q)) id l contents := by
  have same : ∀ k p, (∃ q ∈ l, tkey (s.loAt q) = k ∧ id q = p) ↔ p ∈ l ∧ tkey (s.loAt p) = k := fun k p =>
    ⟨fun ⟨_, member, isKey, isRange⟩ => isRange ▸ ⟨member, isKey⟩, fun ⟨member, isKey⟩ => ⟨p, member, isKey, rfl⟩⟩
  simp only [Binds, Keyed, same]

/-- The ranges `l` are those that are live, in the order of their addresses, and the tree leads to
each of them. -/
structure Filed (s : RangeSet) (l : List Addr) : Prop where
  live : ∀ p, p ∈ s.ranges ↔ p ∈ l
  real : 0 ∉ l
  tree : ∃ contents, s.loTree.Implements contents ∧ s.Binds l contents
  fits : ∀ p ∈ l, s.loAt p ≤ s.hiAt p ∧ (s.hiAt p).toNat < 2 ^ 63
  starts : l.Pairwise (s.loAt · < s.loAt ·)

theorem tkey_of_lt (small : lo.toNat < 2 ^ 63) : tkey lo = lo.toNat := by
  unfold tkey
  rw [BitVec.toInt_eq_toNat_cond, if_pos (by simp; omega)]
  rfl

theorem tkey_injective {a b : Addr} (same : tkey a = tkey b) : a = b :=
  UInt64.toBitVec_inj.mp (BitVec.toInt_inj.mp same)

theorem Filed.nodup (filed : s.Filed l) : l.Nodup :=
  filed.starts.imp fun less same => absurd (same ▸ less) (UInt64.lt_irrefl _)

/-- The search of `add_range`. -/
theorem Filed.neighbours (filed : s.Filed l) (small : lo.toNat < 2 ^ 63) :
    ∃ pre post tree, l = pre ++ post ∧ s.loTree.treeFindNearest (tkey lo) = some (pre.getLastD 0, tree) ∧
      (∀ q ∈ pre, s.loAt q ≤ lo) ∧ (∀ q ∈ post, lo < s.loAt q) ∧ tree.nodes = s.loTree.nodes ∧
      ∃ contents, tree.Implements contents ∧ s.Binds l contents := by
  obtain ⟨contents, ⟨t, st, holds⟩, binds⟩ := filed.tree
  obtain ⟨r, count, found, nearest⟩ := st.findNearest holds (tkey lo)
  have searched : ∃ contents, SplayTree.Implements { s.loTree with comparisonCount := count } contents ∧ s.Binds l contents :=
    ⟨contents, ⟨t, st.recount count, holds⟩, binds⟩
  have fits : ∀ q ∈ l, tkey (s.loAt q) = (s.loAt q).toNat := fun q member => by
    have fit := filed.fits q member
    have le := UInt64.le_iff_toNat_le.mp fit.1
    exact tkey_of_lt (by omega)
  have bound : ∀ q ∈ l, contents (tkey (s.loAt q)) = some q := fun q member => (binds _ q).mpr ⟨member, rfl⟩
  rw [tkey_of_lt small] at nearest
  rcases nearest with ⟨j, greatest, isRange⟩ | ⟨nothing, rfl⟩
  · obtain ⟨member, isKey⟩ := (binds j r).mp isRange
    obtain ⟨pre, post, rfl⟩ := List.append_of_mem member
    have below : s.loAt r ≤ lo := by
      have le := greatest.1.1
      rw [← isKey, fits r member] at le
      exact UInt64.le_iff_toNat_le.mpr (by omega)
    have starts := filed.starts
    rw [List.pairwise_append, List.pairwise_cons] at starts
    refine ⟨pre ++ [r], post, { s.loTree with comparisonCount := count }, by simp, by simpa using found, ?_, ?_, rfl, searched⟩
    · intro q inPre
      obtain inPre | rfl := List.mem_append.mp inPre |>.imp_right List.mem_singleton.mp
      · exact UInt64.le_trans (UInt64.le_of_lt (starts.2.2 q inPre r (List.mem_cons_self ..))) below
      · exact below
    · intro q inPost
      by_contra notAbove
      have inList : q ∈ pre ++ r :: post := by simp [inPost]
      have le := greatest.2 ⟨?_, by rw [bound q inList]; simp⟩
      · rw [← isKey, fits r member, fits q inList] at le
        have after := starts.2.1.1 q inPost
        rw [UInt64.lt_iff_toNat_lt] at after
        omega
      · rw [fits q inList]
        rw [UInt64.not_lt, UInt64.le_iff_toNat_le] at notAbove
        omega
  · refine ⟨[], l, { s.loTree with comparisonCount := count }, rfl, found, by simp, fun q member => ?_, rfl, searched⟩
    by_contra notAbove
    have isNull := nothing (tkey (s.loAt q)) (by
      rw [fits q member]
      rw [UInt64.not_lt, UInt64.le_iff_toNat_le] at notAbove
      omega)
    rw [bound q member] at isNull
    cases isNull

/-! ## The overlap check -/

/-- What the checks find. -/
def overlapOf (s : RangeSet) (prev next lo hi : Addr) : Option RangeError :=
  if prev ≠ 0 ∧ lo ≤ s.hiAt prev then some (.overlaps lo hi (s.loAt prev) (s.hiAt prev))
  else if next ≠ 0 ∧ s.loAt next ≤ hi then some (.overlaps lo hi (s.loAt next) (s.hiAt next))
  else none

theorem clash_eq (livePrev : prev ≠ 0 → prev ∈ s.ranges) (liveNext : next ≠ 0 → next ∈ s.ranges) :
    s.clash prev next lo hi = some (s.overlapOf prev next lo hi) := by
  have after : (if next = 0 then some none else do
        let r ← s.ranges.lookup next
        some (if hi ≥ r.lo then some (RangeError.overlaps lo hi r.lo r.hi) else none)) =
      some (if next ≠ 0 ∧ s.loAt next ≤ hi then some (.overlaps lo hi (s.loAt next) (s.hiAt next)) else none) := by
    by_cases isNull : next = 0
    · simp [isNull]
    · rw [if_neg isNull, lookup_eq (liveNext isNull)]
      simp only [Option.bind_eq_bind, Option.bind_some, ne_eq, isNull, not_false_eq_true, true_and]
      rfl
  unfold clash overlapOf
  rw [after]
  by_cases isNull : prev = 0
  · simp [isNull]
  · rw [if_neg isNull, lookup_eq (livePrev isNull)]
    simp only [Option.bind_eq_bind, Option.bind_some, ne_eq, isNull, not_false_eq_true, true_and]
    by_cases overlap : lo ≤ (s.rangeAt prev).hi
    · simp [overlap, hiAt, loAt]
    · simp [overlap, hiAt]

/-- The upper neighbour that `add_range` takes from the lower one. -/
def nextSeen (s : RangeSet) (prev : Addr) : Addr := if prev = 0 then 0 else s.nextAt prev

/-- What `add_range` does once the search has found a neighbour. -/
theorem record_found {tree : SplayTree} (found : s.loTree.treeFindNearest (tkey lo) = some (prev, tree))
    (livePrev : prev ≠ 0 → prev ∈ s.ranges) (liveNext : s.nextSeen prev ≠ 0 → s.nextSeen prev ∈ s.ranges) (hi : Addr)
    (index : Int) (p z : Addr) :
    s.record lo hi index p z =
      match s.overlapOf prev (s.nextSeen prev) lo hi with
      | some error => some (.error error, { s with loTree := tree })
      | none => (insertRange { s with loTree := tree } prev (s.nextSeen prev) lo hi index p z).map (.ok (), ·) := by
  have isNext : (if prev = 0 then some (0 : Addr) else (s.ranges.lookup prev).map Range.next) = some (s.nextSeen prev) := by
    unfold nextSeen
    split
    · rfl
    · next nonnull =>
      rw [lookup_eq (livePrev nonnull)]
      rfl
  rw [record, found]
  simp only [Option.bind_eq_bind, Option.bind_some, isNext]
  rw [clash_eq (s := { s with loTree := tree }) livePrev liveNext, Option.bind_some]
  show (match s.overlapOf prev (s.nextSeen prev) lo hi with
    | some error => _
    | none => _) = _
  cases s.overlapOf prev (s.nextSeen prev) lo hi with
  | some error => rfl
  | none => exact (Option.map_eq_bind ..).symm

/-! ## Insertion -/

/-- A range is entered at `p`, and linked from the neighbours that are named. -/
structure Entered (s s' : RangeSet) (prev next lo hi : Addr) (index : Int) (p : Addr) : Prop where
  list : s'.list = if prev = 0 then p else s.list
  nexts : ∀ q, s'.nextAt q = if q = prev ∧ prev ≠ 0 then p else if q = p then next else s.nextAt q
  prevs : ∀ q, s'.prevAt q = if q = next ∧ next ≠ 0 then p else if q = p then prev else s.prevAt q
  new : s'.loAt p = lo ∧ s'.hiAt p = hi ∧ s'.indexAt p = index
  others : ∀ q, q ≠ p → s'.loAt q = s.loAt q ∧ s'.hiAt q = s.hiAt q ∧ s'.indexAt q = s.indexAt q

/-- The links once a range is filled in. -/
theorem enter (s : RangeSet) (livePrev : prev ≠ 0 → prev ∈ s.ranges) (liveNext : next ≠ 0 → next ∈ s.ranges)
    (lo hi : Addr) (index : Int) (p : Addr) :
    ∃ s₁ s₂, linkAfter { s with ranges := s.ranges.insert p ⟨lo, hi, index, next, prev⟩ } prev p = some s₁ ∧
      s₁.linkBefore next p = some s₂ ∧ Entered s s₂ prev next lo hi index p ∧
      (∀ q, q ∈ s₂.ranges ↔ q = p ∨ q ∈ s.ranges) ∧ s₂.loTree = s.loTree := by
  obtain ⟨s₀, isFilled⟩ : ∃ s₀, s₀ = { s with ranges := s.ranges.insert p ⟨lo, hi, index, next, prev⟩ } := ⟨_, rfl⟩
  have at₀ : ∀ q, s₀.rangeAt q = if q = p then ⟨lo, hi, index, next, prev⟩ else s.rangeAt q := by
    intro q
    rw [isFilled, rangeAt_insert]
  have live₀ : ∀ q, q ∈ s₀.ranges ↔ q = p ∨ q ∈ s.ranges := fun q => by
    rw [isFilled]
    exact AList.mem_insert _
  obtain ⟨s₁, step₁, linked₁, list₁, next₁, prev₁⟩ :=
    linkAfter_eq s₀ prev (fun real => (live₀ _).mpr (.inr (livePrev real))) p
  obtain ⟨s₂, step₂, linked₂, list₂, next₂, prev₂⟩ :=
    linkBefore_eq s₁ next (fun real => (linked₁.live _).mpr ((live₀ _).mpr (.inr (liveNext real)))) p
  have linked := linked₁.trans linked₂
  refine ⟨s₁, s₂, isFilled ▸ step₁, step₂, ⟨?_, fun q => ?_, fun q => ?_, ?_, fun q other => ?_⟩,
    fun q => (linked.live q).trans (live₀ q), by rw [linked.tree, isFilled]⟩
  · rw [list₂, list₁, isFilled]
  · rw [next₂, next₁, nextAt, at₀, apply_ite Range.next]
    rfl
  · rw [prev₂, prev₁, prevAt, at₀, apply_ite Range.prev]
    rfl
  · rw [linked.lo, linked.hi, linked.index, loAt, hiAt, indexAt, at₀, if_pos rfl]
    exact ⟨rfl, rfl, rfl⟩
  · rw [linked.lo, linked.hi, linked.index, loAt, hiAt, indexAt, at₀, if_neg other]
    exact ⟨rfl, rfl, rfl⟩

theorem size_toNat (fit : lo ≤ hi) (small : hi.toNat < 2 ^ 63) : (hi - lo + 1).toNat = hi.toNat - lo.toNat + 1 := by
  have le := UInt64.le_iff_toNat_le.mp fit
  rw [UInt64.toNat_add, UInt64.toNat_sub_of_le _ _ fit]
  exact Nat.mod_eq_of_lt (by simp; omega)

/-- A range that starts at an address of its own is entered. -/
theorem Filed.insert (filed : s.Filed (pre ++ post)) (fit : lo ≤ hi) (small : hi.toNat < 2 ^ 63)
    (below : ∀ q ∈ pre, s.loAt q < lo) (above : ∀ q ∈ post, lo < s.loAt q) (realP : p ≠ 0) (freshP : p ∉ s.ranges)
    (realZ : z ≠ 0) (freshZ : z ∉ s.loTree.nodes) (index : Int) (livePrev : prev ≠ 0 → prev ∈ s.ranges)
    (liveNext : next ≠ 0 → next ∈ s.ranges) :
    ∃ s', s.insertRange prev next lo hi index p z = some s' ∧ Entered s s' prev next lo hi index p ∧
      s'.Filed (pre ++ p :: post) := by
  obtain ⟨s₁, s₂, step₁, step₂, entered, live, tree⟩ := enter s livePrev liveNext lo hi index p
  obtain ⟨contents, ⟨t, st, holds⟩, binds⟩ := filed.tree
  have old : ∀ q ∈ pre ++ post, q ≠ p := by
    rintro q member rfl
    exact freshP ((filed.live q).mpr member)
  obtain ⟨loP, hiP, -⟩ := entered.new
  have loOld : ∀ q ∈ pre ++ post, s₂.loAt q = s.loAt q := fun q member => (entered.others q (old q member)).1
  have hiOld : ∀ q ∈ pre ++ post, s₂.hiAt q = s.hiAt q := fun q member => (entered.others q (old q member)).2.1
  have apart : ∀ q ∈ pre ++ post, tkey (s.loAt q) ≠ tkey lo := by
    intro q member same
    obtain rfl := tkey_injective same
    obtain inPre | inPost := List.mem_append.mp member
    · exact UInt64.lt_irrefl _ (below q inPre)
    · exact UInt64.lt_irrefl _ (above q inPost)
  obtain ⟨t', tree', inserted, st', holds'⟩ : ∃ t' tree', s.loTree.treeInsert (tkey lo) p z = some (true, tree') ∧
      tree'.SearchTree t' ∧ tree'.Holds t' (Function.update contents (tkey lo) (some p)) := by
    obtain ⟨bound, -⟩ | ⟨-, tree', t', inserted, st', holds'⟩ := st.insert holds (tkey lo) p realZ freshZ
    · exact absurd ((binds_iff_keyed.mp binds).eq_none apart) bound
    · exact ⟨t', tree', inserted, st', holds'⟩
  have bound : Binds { s₂ with loTree := tree' } (pre ++ p :: post) (Function.update contents (tkey lo) (some p)) := by
    have joined : Keyed (fun q => tkey (s₂.loAt q)) id (pre ++ p :: post)
        (Function.update contents (tkey (s₂.loAt p)) (some p)) :=
      (binds_iff_keyed.mp binds).insert (fun q member => congrArg tkey (loOld q member)) (fun _ _ => rfl)
        (by rw [loP]; exact apart)
    rw [loP] at joined
    exact binds_iff_keyed.mpr joined
  refine ⟨{ s₂ with loTree := tree' }, ?_, ⟨entered.list, entered.nexts, entered.prevs, entered.new, entered.others⟩,
    ⟨fun q => ?_, ?_, ⟨_, ⟨t', st', holds'⟩, bound⟩, fun q member => ?_, ?_⟩⟩
  · rw [insertRange, if_neg realP]
    simp only [Option.bind_eq_bind, step₁, Option.bind_some, step₂, tree, inserted]
  · rw [mem_middle, ← filed.live]
    exact live q
  · rw [mem_middle, not_or]
    exact ⟨Ne.symm realP, filed.real⟩
  · show s₂.loAt q ≤ s₂.hiAt q ∧ (s₂.hiAt q).toNat < 2 ^ 63
    obtain rfl | member := mem_middle.mp member
    · rw [loP, hiP]
      exact ⟨fit, small⟩
    · rw [loOld q member, hiOld q member]
      exact filed.fits q member
  · show (pre ++ p :: post).Pairwise (s₂.loAt · < s₂.loAt ·)
    have starts : (pre ++ post).Pairwise (s₂.loAt · < s₂.loAt ·) :=
      filed.starts.imp_of_mem fun a b less => by rwa [loOld _ a, loOld _ b]
    rw [List.pairwise_append] at starts ⊢
    refine ⟨starts.1, List.pairwise_cons.mpr ⟨fun q inPost => ?_, starts.2.1⟩, fun q inPre u member => ?_⟩
    · rw [loP, loOld q (List.mem_append_right _ inPost)]
      exact above q inPost
    · obtain rfl | inPost := List.mem_cons.mp member
      · rw [loOld q (List.mem_append_left _ inPre), loP]
        exact below q inPre
      · exact starts.2.2 q inPre u inPost

/-! ## Removal -/

/-- The range at `p` is gone, and its neighbours are linked past it. -/
structure Dropped (s s' : RangeSet) (p : Addr) : Prop where
  list : s'.list = if s.prevAt p = 0 then s.nextAt p else s.list
  nexts : ∀ q, q ≠ p → s'.nextAt q = if q = s.prevAt p ∧ s.prevAt p ≠ 0 then s.nextAt p else s.nextAt q
  prevs : ∀ q, q ≠ p → s'.prevAt q = if q = s.nextAt p ∧ s.nextAt p ≠ 0 then s.prevAt p else s.prevAt q
  others : ∀ q, q ≠ p → s'.loAt q = s.loAt q ∧ s'.hiAt q = s.hiAt q ∧ s'.indexAt q = s.indexAt q

/-- The links once a range has left. -/
theorem leave (s : RangeSet) (livePrev : s.prevAt p ≠ 0 → s.prevAt p ∈ s.ranges)
    (liveNext : s.nextAt p ≠ 0 → s.nextAt p ∈ s.ranges) (tree : SplayTree) :
    ∃ s₁ s₂, linkAfter { s with loTree := tree } (s.prevAt p) (s.nextAt p) = some s₁ ∧
      s₁.linkBefore (s.nextAt p) (s.prevAt p) = some s₂ ∧ Dropped s { s₂ with ranges := s₂.ranges.erase p } p ∧
      (∀ q, q ∈ s₂.ranges ↔ q ∈ s.ranges) ∧ s₂.loTree = tree := by
  obtain ⟨s₀, isRemoved⟩ : ∃ s₀, s₀ = { s with loTree := tree } := ⟨_, rfl⟩
  have live₀ : ∀ q, q ∈ s₀.ranges ↔ q ∈ s.ranges := fun q => by rw [isRemoved]
  obtain ⟨s₁, step₁, linked₁, list₁, next₁, prev₁⟩ :=
    linkAfter_eq s₀ (s.prevAt p) (fun real => (live₀ _).mpr (livePrev real)) (s.nextAt p)
  obtain ⟨s₂, step₂, linked₂, list₂, next₂, prev₂⟩ :=
    linkBefore_eq s₁ (s.nextAt p) (fun real => (linked₁.live _).mpr ((live₀ _).mpr (liveNext real))) (s.prevAt p)
  have linked := linked₁.trans linked₂
  obtain ⟨s₃, isFreed⟩ : ∃ s₃, s₃ = { s₂ with ranges := s₂.ranges.erase p } := ⟨_, rfl⟩
  have stays : ∀ q, q ≠ p → s₃.rangeAt q = s₂.rangeAt q := fun q other => by
    rw [isFreed, rangeAt, rangeAt, AList.lookup_erase_ne other]
  refine ⟨s₁, s₂, isRemoved ▸ step₁, step₂, isFreed ▸ ⟨?_, fun q other => ?_, fun q other => ?_, fun q other => ?_⟩,
    fun q => (linked.live q).trans (live₀ q), by rw [linked.tree, isRemoved]⟩
  · have isList : s₃.list = s₂.list := by rw [isFreed]
    rw [isList, list₂, list₁, isRemoved]
  · rw [nextAt, stays q other, ← nextAt, next₂, next₁, isRemoved]
    rfl
  · rw [prevAt, stays q other, ← prevAt, prev₂, prev₁, isRemoved]
    rfl
  · rw [loAt, hiAt, indexAt, stays q other, ← loAt, ← hiAt, ← indexAt, linked.lo, linked.hi, linked.index, isRemoved]
    exact ⟨rfl, rfl, rfl⟩

/-- The range at an address leaves, if there is one. -/
theorem Filed.remove (filed : s.Filed l) (lo : Addr) (livePrev : ∀ p ∈ l, s.prevAt p ≠ 0 → s.prevAt p ∈ l)
    (liveNext : ∀ p ∈ l, s.nextAt p ≠ 0 → s.nextAt p ∈ l) :
    (∃ tree, s.removeRange lo = some { s with loTree := tree } ∧ Filed { s with loTree := tree } l ∧
      ∀ q ∈ l, s.loAt q ≠ lo) ∨
    ∃ pre p post s', l = pre ++ p :: post ∧ s.loAt p = lo ∧ (∀ q ∈ pre ++ post, s.loAt q ≠ s.loAt p) ∧
      s.removeRange lo = some s' ∧ Dropped s s' p ∧ s'.Filed (pre ++ post) := by
  obtain ⟨contents, ⟨t, st, holds⟩, binds⟩ := filed.tree
  obtain ⟨unbound, count, removed⟩ | ⟨p, tree', t', bound, removed, st', holds'⟩ := st.remove holds (tkey lo)
  · refine .inl ⟨{ s.loTree with comparisonCount := count }, ?_,
      { filed with tree := ⟨contents, ⟨t, st.recount count, holds⟩, binds⟩ }, ?_⟩
    · rw [removeRange, removed]
      rfl
    · rintro q member rfl
      have bound := (binds (tkey (s.loAt q)) q).mpr ⟨member, rfl⟩
      rw [unbound] at bound
      cases bound
  · obtain ⟨member, isKey⟩ := (binds _ p).mp bound
    obtain rfl : s.loAt p = lo := tkey_injective isKey
    have live : p ∈ s.ranges := (filed.live p).mpr member
    have realP : p ≠ 0 := by
      rintro rfl
      exact filed.real member
    obtain ⟨s₁, s₂, step₁, step₂, dropped, live₂, tree₂⟩ := leave s
      (fun real => (filed.live _).mpr (livePrev p member real)) (fun real => (filed.live _).mpr (liveNext p member real)) tree'
    obtain ⟨pre, post, rfl⟩ := List.append_of_mem member
    have others := ne_of_nodup_middle filed.nodup
    have sublist : (pre ++ post).Sublist (pre ++ p :: post) := (List.sublist_cons_self p post).append_left pre
    obtain ⟨s₃, isFreed⟩ : ∃ s₃, s₃ = { s₂ with ranges := s₂.ranges.erase p } := ⟨_, rfl⟩
    rw [← isFreed] at dropped
    have loSame : ∀ q ∈ pre ++ post, s₃.loAt q = s.loAt q := fun q member => (dropped.others q (others q member)).1
    have hiSame : ∀ q ∈ pre ++ post, s₃.hiAt q = s.hiAt q := fun q member => (dropped.others q (others q member)).2.1
    -- the addresses of the payloads differ, as these follow each other
    have apart : ∀ q ∈ pre ++ post, s.loAt q ≠ s.loAt p := by
      intro q member same
      have bound₁ := (binds _ q).mpr ⟨sublist.subset member, rfl⟩
      rw [same, bound, Option.some_inj] at bound₁
      exact others q member bound₁.symm
    have left : s₃.Binds (pre ++ post) (Function.update contents (tkey (s.loAt p)) none) :=
      binds_iff_keyed.mpr ((binds_iff_keyed.mp binds).erase (fun q member => congrArg tkey (loSame q member))
        (fun _ _ => rfl) fun q member same => apart q member (tkey_injective same))
    refine .inr ⟨pre, p, post, s₃, rfl, rfl, apart, ?_, dropped, fun q => ?_, fun member => filed.real (sublist.subset member),
      ⟨_, ?_, left⟩, fun q member => ?_, ?_⟩
    · rw [removeRange, removed]
      simp only [Option.bind_eq_bind, Option.bind_some, if_neg realP, lookup_eq live]
      rw [show (s.rangeAt p).prev = s.prevAt p from rfl, show (s.rangeAt p).next = s.nextAt p from rfl, step₁,
        Option.bind_some, step₂, isFreed]
      rfl
    · have freed : q ∈ s₃.ranges ↔ q ≠ p ∧ q ∈ s₂.ranges := by
        rw [isFreed]
        exact AList.mem_erase
      rw [freed, live₂, filed.live, mem_middle]
      exact ⟨fun both => both.2.resolve_left both.1, fun member => ⟨others q member, .inr member⟩⟩
    · have tree : s₃.loTree = tree' := by rw [isFreed, ← tree₂]
      rw [tree]
      exact ⟨t', st', holds'⟩
    · rw [loSame q member, hiSame q member]
      exact filed.fits q (sublist.subset member)
    · refine (filed.starts.sublist sublist).imp_of_mem fun a b less => ?_
      rwa [loSame _ a, loSame _ b]

end RangeSet

end SystemsLabs.Driver
