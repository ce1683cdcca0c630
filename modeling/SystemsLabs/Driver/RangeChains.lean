/-
# SystemsLabs.Driver.RangeChains -- the set of ranges under any payloads

`Overlap` says when `add_range` sees both neighbours of a payload.  Here are all the other calls too:
payloads below all that are recorded, which cut the list, and payloads that overlap unnoticed.

The list is then only a row of chains (`SeveredList`), but nothing else is lost.  The tree leads to
every recorded payload, no call follows a link to a range that was freed, and what `add_range`
reports is so (`payloads_kept`).  In particular a payload in the heap that is disjoint from all others
is never refused.
-/
import SystemsLabs.Driver.Overlap
import SystemsLabs.Theory.SeveredList

namespace SystemsLabs.Driver

set_option autoImplicit false

open Theory.KeyedLists Theory.PointerPath Theory.LinkedTree Theory.Runs Theory.SeveredList

namespace RangeSet

/-- The size and the index of the payload at each address. -/
abbrev Owners := Addr → Option (UInt64 × Int)

variable {s s' : RangeSet} {p q prev next lo hi z : Addr} {index : Int} {l pre post : List Addr} {m : Owners}

/-- The invariant of all calls. -/
structure Kept (s : RangeSet) (m : Owners) (l : List Addr) : Prop where
  links : Seamed s.nextAt s.prevAt 0 (0 :: (l ++ [0]))
  head : s.list = 0 ∨ s.list ∈ l ∧ s.prevAt s.list = 0
  live : ∀ p, p ∈ s.ranges ↔ p ∈ l
  real : 0 ∉ l
  tree : ∃ contents, s.loTree.Implements contents ∧ s.Binds l contents
  fits : ∀ p ∈ l, s.loAt p ≤ s.hiAt p ∧ (s.hiAt p).toNat < 2 ^ 63
  ordered : l.Pairwise (s.loAt · < s.loAt ·)
  owners : ∀ lo size index, m lo = some (size, index) ↔
    ∃ p ∈ l, s.loAt p = lo ∧ s.hiAt p - s.loAt p + 1 = size ∧ s.indexAt p = index

theorem kept_start : newRangeSet.Kept (fun _ => none) [] where
  links := List.isChain_cons_cons.mpr ⟨.inr ⟨fun real => absurd rfl real, fun real => absurd rfl real⟩,
    List.isChain_singleton 0⟩
  head := .inl rfl
  live p := ⟨fun member => absurd member (AList.notMem_empty p), fun member => absurd member List.not_mem_nil⟩
  real := List.not_mem_nil
  tree := ⟨_, SplayTree.implements_treeNew, fun k p => by simp⟩
  fits p member := absurd member List.not_mem_nil
  ordered := List.Pairwise.nil
  owners lo size index := by simp

theorem Kept.filed (kept : s.Kept m l) : s.Filed l where
  live := kept.live
  real := kept.real
  tree := kept.tree
  fits := kept.fits
  starts := kept.ordered

/-- The owner of a range. -/
def ownerAt (s : RangeSet) (p : Addr) : UInt64 × Int := (s.sizeAt p, s.indexAt p)

theorem keyed_iff_owners : Keyed s.loAt s.ownerAt l m ↔ ∀ lo size index, m lo = some (size, index) ↔
    ∃ p ∈ l, s.loAt p = lo ∧ s.hiAt p - s.loAt p + 1 = size ∧ s.indexAt p = index := by
  simp only [Keyed, Prod.forall, ownerAt, sizeAt, Prod.mk.injEq]

theorem Kept.keyed (kept : s.Kept m l) : Keyed s.loAt s.ownerAt l m := keyed_iff_owners.mpr kept.owners

theorem Kept.nodup (kept : s.Kept m l) : l.Nodup := kept.filed.nodup

/-- The search of `add_range`. -/
theorem Kept.neighbours (kept : s.Kept m l) (small : lo.toNat < 2 ^ 63) :
    ∃ pre post tree, l = pre ++ post ∧ s.loTree.treeFindNearest (tkey lo) = some (pre.getLastD 0, tree) ∧
      (∀ q ∈ pre, s.loAt q ≤ lo) ∧ (∀ q ∈ post, lo < s.loAt q) ∧ tree.nodes = s.loTree.nodes ∧
      Kept { s with loTree := tree } m l := by
  obtain ⟨pre, post, tree, split, found, below, above, nodes, contents, searched⟩ := kept.filed.neighbours small
  exact ⟨pre, post, tree, split, found, below, above, nodes, { kept with tree := ⟨contents, searched⟩ }⟩

/-- It is the next payload, linked to the lower one, or none. -/
theorem Kept.nextSeen_eq (kept : s.Kept m (pre ++ post)) :
    s.nextSeen (pre.getLastD 0) = 0 ∨ s.nextSeen (pre.getLastD 0) = post.headD 0 ∧ post.headD 0 ≠ 0 ∧
      s.prevAt (post.headD 0) = pre.getLastD 0 ∧ pre.getLastD 0 ≠ 0 := by
  obtain ⟨before, after, row, -⟩ := row_split (0 : Addr) kept.nodup
  have links := kept.links
  rw [row] at links
  obtain ⟨-, seam, -⟩ := List.isChain_append_cons_cons.mp links
  unfold nextSeen
  split
  · exact .inl rfl
  · next nonnull =>
    rcases seam with ⟨-, real, forward, backward⟩ | ⟨closed, -⟩
    · exact .inr ⟨forward, real, backward, nonnull⟩
    · exact .inl (closed nonnull)

/-! ## Insertion -/

/-- The links once a range is after its lower neighbour. -/
theorem Kept.link (kept : s.Kept m (pre ++ post)) (fresh : p ∉ s.ranges) (realP : p ≠ 0)
    (entered : Entered s s' (pre.getLastD 0) (s.nextSeen (pre.getLastD 0)) lo hi index p) :
    Seamed s'.nextAt s'.prevAt 0 (0 :: (pre ++ p :: post ++ [0])) ∧
      (s'.list = 0 ∨ s'.list ∈ pre ++ p :: post ∧ s'.prevAt s'.list = 0) := by
  have isSeen := kept.nextSeen_eq
  obtain ⟨seen, nameSeen⟩ : ∃ seen, seen = s.nextSeen (pre.getLastD 0) := ⟨_, rfl⟩
  rw [← nameSeen] at isSeen entered
  have others : ∀ q ∈ pre ++ post, q ≠ p := by
    rintro q member rfl
    exact fresh ((kept.live q).mpr member)
  have seenIn : seen ≠ 0 → seen ∈ pre ++ post := by
    intro nonnull
    obtain ⟨isHead, real, -⟩ := isSeen.resolve_left nonnull
    rw [isHead]
    exact List.mem_append_right _ (headD_mem real)
  have backward : s'.prevAt p = pre.getLastD 0 := by
    rw [entered.prevs, if_neg fun both => others _ (seenIn both.2) both.1.symm, if_pos rfl]
  constructor
  · obtain ⟨before, after, row, row', low, high⟩ := row_split (0 : Addr) kept.nodup
    have links := kept.links
    rw [row] at links
    rw [row']
    have apart : ∀ y, y ∈ pre → y ∈ post → False := fun y inPre inPost =>
      (List.nodup_append.mp kept.nodup).2.2 y inPre y inPost rfl
    have inList : ∀ y ∈ before ++ pre.getLastD 0 :: post.headD 0 :: after, y ≠ 0 → y ∈ pre ++ post := by
      intro y member realY
      rw [← row] at member
      simpa [realY] using member
    have notP : ∀ y ∈ before ++ pre.getLastD 0 :: post.headD 0 :: after, y ≠ 0 → y ≠ p := fun y member realY =>
      others y (inList y member realY)
    refine Seamed.insert links realP seen (fun isNull => ?_) (fun nonnull => ?_) ?_ backward (fun nonnull => ?_)
      (fun nonnull => ?_) ?_ ?_ ?_
    · rw [nameSeen, nextSeen, if_pos isNull]
    · rw [nameSeen, nextSeen, if_neg nonnull]
    · rw [entered.nexts, if_neg fun both => others _ (List.mem_append_left _ (getLastD_mem both.2)) both.1.symm, if_pos rfl]
    · rw [entered.nexts, if_pos ⟨rfl, nonnull⟩]
    · rw [entered.prevs, if_pos ⟨rfl, nonnull⟩]
    · intro y member realY
      have inRow : y ∈ before ++ pre.getLastD 0 :: post.headD 0 :: after := by
        rw [List.mem_append] at member ⊢
        exact member.imp_right (List.mem_cons_of_mem _)
      rw [entered.nexts, if_neg, if_neg (notP y inRow realY)]
      rintro ⟨rfl, nonnull⟩
      rcases List.mem_append.mp member with inLow | inHigh
      · exact (low _ inLow nonnull).2 rfl
      · have inPost : pre.getLastD 0 ∈ post := by
          rcases List.mem_cons.mp inHigh with same | inAfter
          · rw [same]
            exact headD_mem (same ▸ nonnull)
          · exact (high _ inAfter nonnull).1
        exact apart _ (getLastD_mem nonnull) inPost
    · intro y member realY notSeen
      rw [entered.prevs, if_neg (fun both => notSeen both.1), if_neg (notP y member realY)]
    · rintro y member realY rfl
      rcases List.mem_append.mp member with inLow | inHigh
      · exact apart _ (low _ inLow realY).1 (headD_mem realY)
      · rcases List.mem_cons.mp inHigh with same | inAfter
        · exact apart _ (same ▸ getLastD_mem (same ▸ realY)) (headD_mem realY)
        · exact (high _ inAfter realY).2 rfl
  · rw [entered.list]
    split
    · next isNull => exact .inr ⟨by simp, backward.trans isNull⟩
    · apply kept.head.imp_right
      rintro ⟨member, first⟩
      refine ⟨mem_middle.mpr (.inr member), ?_⟩
      rw [entered.prevs, if_neg, if_neg (others _ member)]
      · exact first
      · rintro ⟨same, real⟩
        obtain ⟨isHead, -, backward, nonnull⟩ := isSeen.resolve_left real
        rw [same, isHead, backward] at first
        exact nonnull first

/-- A link to the upper neighbour that is seen leads to a live range. -/
theorem Kept.nextSeen_live (kept : s.Kept m (pre ++ post)) (nonnull : s.nextSeen (pre.getLastD 0) ≠ 0) :
    s.nextSeen (pre.getLastD 0) ∈ s.ranges := by
  obtain ⟨isHead, real, -⟩ := kept.nextSeen_eq.resolve_left nonnull
  rw [isHead]
  exact (kept.live _).mpr (List.mem_append_right _ (headD_mem real))

/-- A payload that starts at an address of its own is recorded. -/
theorem Kept.insert (kept : s.Kept m (pre ++ post)) (fit : lo ≤ hi) (small : hi.toNat < 2 ^ 63)
    (below : ∀ q ∈ pre, s.loAt q < lo) (above : ∀ q ∈ post, lo < s.loAt q) (realP : p ≠ 0) (freshP : p ∉ s.ranges)
    (realZ : z ≠ 0) (freshZ : z ∉ s.loTree.nodes) (index : Int) :
    ∃ s', s.insertRange (pre.getLastD 0) (s.nextSeen (pre.getLastD 0)) lo hi index p z = some s' ∧
      s'.Kept (Function.update m lo (some (hi - lo + 1, index))) (pre ++ p :: post) := by
  obtain ⟨s', step, entered, filed⟩ := kept.filed.insert fit small below above realP freshP realZ freshZ index
    (fun real => (kept.live _).mpr (List.mem_append_left _ (getLastD_mem real))) kept.nextSeen_live
  obtain ⟨links, head⟩ := kept.link freshP realP entered
  have old : ∀ q ∈ pre ++ post, q ≠ p := by
    rintro q member rfl
    exact freshP ((kept.live q).mpr member)
  obtain ⟨loP, hiP, indexP⟩ := entered.new
  have loOld : ∀ q ∈ pre ++ post, s'.loAt q = s.loAt q := fun q member => (entered.others q (old q member)).1
  have ownerOld : ∀ q ∈ pre ++ post, s'.ownerAt q = s.ownerAt q := fun q member => by
    obtain ⟨isLo, isHi, isIndex⟩ := entered.others q (old q member)
    rw [ownerAt, sizeAt, isLo, isHi, isIndex, ownerAt, sizeAt]
  have keyed := kept.keyed.insert (p := p) loOld ownerOld (by
    rw [loP]
    rintro q member rfl
    obtain inPre | inPost := List.mem_append.mp member
    · exact UInt64.lt_irrefl _ (below q inPre)
    · exact UInt64.lt_irrefl _ (above q inPost))
  rw [ownerAt, sizeAt, loP, hiP, indexP] at keyed
  exact ⟨s', step, links, head, filed.live, filed.real, filed.tree, filed.fits, filed.starts, keyed_iff_owners.mp keyed⟩

/-! ## Removal -/

/-- The neighbours of a range, as its links name them. -/
theorem Kept.around (kept : s.Kept m (pre ++ p :: post)) :
    (s.prevAt p ≠ 0 → s.prevAt p ∈ pre) ∧ (s.nextAt p ≠ 0 → s.nextAt p ∈ post ∧ s.prevAt (s.nextAt p) = p) := by
  have rest : (pre ++ post).Nodup := kept.nodup.sublist ((List.sublist_cons_self p post).append_left pre)
  obtain ⟨before, after, -, row', -, -⟩ := row_split (0 : Addr) rest
  have links := kept.links
  rw [row'] at links
  have realP : p ≠ 0 := by
    rintro rfl
    exact kept.real (by simp)
  obtain ⟨isPrev, isNext⟩ := links.around realP
  constructor
  · intro nonnull
    obtain ⟨isLast, real, -⟩ := isPrev.resolve_right fun isNull => nonnull isNull.1
    rw [isLast]
    exact getLastD_mem real
  · intro nonnull
    obtain ⟨isHead, real, backward⟩ := isNext.resolve_right fun isNull => nonnull isNull.1
    rw [isHead]
    exact ⟨headD_mem real, backward⟩

/-- The links once a range has left its chain. -/
theorem Kept.unlink (kept : s.Kept m (pre ++ p :: post)) (dropped : Dropped s s' p) :
    Seamed s'.nextAt s'.prevAt 0 (0 :: (pre ++ post ++ [0])) ∧
      (s'.list = 0 ∨ s'.list ∈ pre ++ post ∧ s'.prevAt s'.list = 0) := by
  have others := ne_of_nodup_middle kept.nodup
  have rest : (pre ++ post).Nodup := kept.nodup.sublist ((List.sublist_cons_self p post).append_left pre)
  have realP : p ≠ 0 := by
    rintro rfl
    exact kept.real (by simp)
  obtain ⟨prevIn, nextIn⟩ := kept.around
  constructor
  · obtain ⟨before, after, row, row', low, high⟩ := row_split (0 : Addr) rest
    have links := kept.links
    rw [row'] at links
    rw [row]
    have apart : ∀ y, y ∈ pre → y ∈ post → False := fun y inPre inPost =>
      (List.nodup_append.mp rest).2.2 y inPre y inPost rfl
    have notP : ∀ y ∈ before ++ pre.getLastD 0 :: post.headD 0 :: after, y ≠ 0 → y ≠ p := fun y member realY => by
      rw [← row] at member
      exact others y (by simpa [realY] using member)
    refine links.unlink realP (fun nonnull => ?_) (fun nonnull => ?_) ?_ ?_ ?_ ?_
    · rw [dropped.nexts _ (others _ (List.mem_append_left _ (prevIn nonnull))), if_pos ⟨rfl, nonnull⟩]
    · rw [dropped.prevs _ (others _ (List.mem_append_right _ (nextIn nonnull).1)), if_pos ⟨rfl, nonnull⟩]
    · intro y member realY notPrev
      rw [dropped.nexts y (notP y member realY), if_neg fun both => notPrev both.1]
    · intro y member realY notNext
      rw [dropped.prevs y (notP y member realY), if_neg fun both => notNext both.1]
    · rintro y member realY rfl
      rcases List.mem_append.mp member with inLow | inHigh
      · exact (low _ inLow realY).2 rfl
      · have inPost : pre.getLastD 0 ∈ post := by
          rcases List.mem_cons.mp inHigh with same | inAfter
          · rw [same]
            exact headD_mem (same ▸ realY)
          · exact (high _ inAfter realY).1
        exact apart _ (getLastD_mem realY) inPost
    · rintro y member realY rfl
      rcases List.mem_append.mp member with inLow | inHigh
      · exact apart _ (low _ inLow realY).1 (headD_mem realY)
      · rcases List.mem_cons.mp inHigh with same | inAfter
        · exact apart _ (same ▸ getLastD_mem (same ▸ realY)) (headD_mem realY)
        · exact (high _ inAfter realY).2 rfl
  · rw [dropped.list]
    split
    · next isNull =>
      by_cases last : s.nextAt p = 0
      · exact .inl last
      · have inRest := List.mem_append_right pre (nextIn last).1
        refine .inr ⟨inRest, ?_⟩
        rw [dropped.prevs _ (others _ inRest), if_pos ⟨rfl, last⟩, isNull]
    · next nonnull =>
      apply kept.head.imp_right
      rintro ⟨member, first⟩
      have notP : s.list ≠ p := fun same => nonnull (same ▸ first)
      refine ⟨(mem_middle.mp member).resolve_left notP, ?_⟩
      rw [dropped.prevs _ notP, if_neg, first]
      rintro ⟨same, present⟩
      rw [same, (nextIn present).2] at first
      exact realP first

/-- **The range at an address** leaves its chain and the tree. -/
theorem Kept.remove (kept : s.Kept m l) (lo : Addr) :
    ∃ s' l', s.removeRange lo = some s' ∧ s'.Kept (Function.update m lo none) l' := by
  have ends : ∀ p ∈ l, (s.prevAt p ≠ 0 → s.prevAt p ∈ l) ∧ (s.nextAt p ≠ 0 → s.nextAt p ∈ l) := by
    intro p member
    obtain ⟨pre, post, rfl⟩ := List.append_of_mem member
    obtain ⟨prevIn, nextIn⟩ := kept.around
    exact ⟨fun real => List.mem_append_left _ (prevIn real),
      fun real => List.mem_append_right _ (List.mem_cons_of_mem _ (nextIn real).1)⟩
  obtain ⟨tree, step, filed, absent⟩ | ⟨pre, p, post, s', rfl, rfl, apart, step, dropped, filed⟩ :=
    kept.filed.remove lo (fun p member => (ends p member).1) fun p member => (ends p member).2
  · refine ⟨_, l, step, ?_⟩
    rw [← kept.keyed.eq_none absent, Function.update_eq_self]
    exact { kept with tree := filed.tree }
  · have others := ne_of_nodup_middle kept.nodup
    obtain ⟨links, head⟩ := kept.unlink dropped
    have loSame : ∀ q ∈ pre ++ post, s'.loAt q = s.loAt q := fun q member => (dropped.others q (others q member)).1
    have ownerSame : ∀ q ∈ pre ++ post, s'.ownerAt q = s.ownerAt q := fun q member => by
      obtain ⟨isLo, isHi, isIndex⟩ := dropped.others q (others q member)
      rw [ownerAt, sizeAt, isLo, isHi, isIndex, ownerAt, sizeAt]
    exact ⟨s', pre ++ post, step, links, head, filed.live, filed.real, filed.tree, filed.fits, filed.starts,
      keyed_iff_owners.mp (kept.keyed.erase loSame ownerSame apart)⟩

/-! ## What `add_range` reports -/

/-- What is reported is so: a payload that is accepted is in the heap, and one that is refused is not
aligned, or not in the heap, or overlaps the payload that the report names. -/
def Truthful (m : Owners) (heap : Extent) (lo : Addr) (size : UInt64) : Except RangeError Unit → Prop
  | .ok () => lo % alignment = 0 ∧ InHeap heap lo size
  | .error (.notAligned _) => lo % alignment ≠ 0
  | .error (.outsideHeap _ _ _ _) => ¬ InHeap heap lo size
  | .error (.overlaps lo' _ otherLo otherHi) => lo' = lo ∧ ∃ size' index, m otherLo = some (size', index) ∧
      otherHi = otherLo + size' - 1 ∧ otherLo.toNat < lo.toNat + size.toNat ∧ lo.toNat < otherLo.toNat + size'.toNat

variable {heap : Extent} {size : UInt64} {debugMode : DebugMode}

/-- What the owners say of a range. -/
theorem Kept.owner (kept : s.Kept m l) (member : q ∈ l) :
    m (s.loAt q) = some (s.hiAt q - s.loAt q + 1, s.indexAt q) ∧
      (s.loAt q).toNat + (s.hiAt q - s.loAt q + 1).toNat = (s.hiAt q).toNat + 1 := by
  have fit := kept.fits q member
  have le := UInt64.le_iff_toNat_le.mp fit.1
  refine ⟨(kept.owners _ _ _).mpr ⟨q, member, rfl, rfl, rfl⟩, ?_⟩
  rw [size_toNat fit.1 fit.2]
  omega

theorem end_of_size (lo hi : UInt64) : hi = lo + (hi - lo + 1) - 1 := by
  grind

/-- What `add_range` does once the neighbours are found. -/
theorem Kept.record_eq (kept : s.Kept m l) (small : lo.toNat < 2 ^ 63) (hi : Addr) (index : Int) (p z : Addr) :
    ∃ pre post tree, l = pre ++ post ∧ (∀ q ∈ pre, s.loAt q ≤ lo) ∧ (∀ q ∈ post, lo < s.loAt q) ∧
      tree.nodes = s.loTree.nodes ∧ Kept { s with loTree := tree } m (pre ++ post) ∧
      s.record lo hi index p z =
        match s.overlapOf (pre.getLastD 0) (s.nextSeen (pre.getLastD 0)) lo hi with
        | some error => some (.error error, { s with loTree := tree })
        | none =>
            (insertRange { s with loTree := tree } (pre.getLastD 0) (s.nextSeen (pre.getLastD 0)) lo hi index p z).map
              (.ok (), ·) := by
  obtain ⟨pre, post, tree, rfl, found, below, above, nodes, kept'⟩ := kept.neighbours small
  exact ⟨pre, post, tree, rfl, below, above, nodes, kept', record_found found
    (fun nonnull => (kept.live _).mpr (List.mem_append_left _ (getLastD_mem nonnull))) kept.nextSeen_live hi index p z⟩

/-- The test against the extent of the heap. -/
theorem outside_iff (positive : size ≠ 0) (fit : lo.toNat + size.toNat ≤ 2 ^ 64) :
    (lo < heap.lo ∨ lo > heap.hi ∨ lo + size - 1 < heap.lo ∨ lo + size - 1 > heap.hi) ↔ ¬ InHeap heap lo size := by
  have sizePos : 0 < size.toNat := Nat.pos_of_ne_zero fun zero => positive (UInt64.toNat_inj.mp zero)
  have ends := end_toNat lo positive
  rw [if_pos fit] at ends
  simp only [InHeap, UInt64.lt_iff_toNat_lt, gt_iff_lt, UInt64.le_iff_toNat_le, ends]
  omega

/-- **`add_range`** on a payload that does not wrap around. -/
theorem Kept.add (kept : s.Kept m l) (debugging : debugMode ≠ .none) (heap : Extent) (positive : size ≠ 0)
    (fit : lo.toNat + size.toNat ≤ 2 ^ 64) (realP : p ≠ 0) (freshP : p ∉ s.ranges) (realZ : z ≠ 0)
    (freshZ : z ∉ s.loTree.nodes) (index : Int) :
    ∃ answer s' l', s.addRange debugMode heap lo size index p z = some (answer, s') ∧
      Truthful m heap lo size answer ∧
      s'.Kept (if answer.isOk then Function.update m lo (some (size, index)) else m) l' := by
  rw [addRange, if_neg positive]
  by_cases aligned : lo % alignment = 0
  · rw [if_neg (not_not_intro aligned)]
    have sizePos : 0 < size.toNat := Nat.pos_of_ne_zero fun zero => positive (UInt64.toNat_inj.mp zero)
    have user := heap.user
    have ends := end_toNat lo positive
    rw [if_pos fit] at ends
    by_cases inHeap : InHeap heap lo size
    · rw [if_neg fun outside => (outside_iff positive fit).mp outside inHeap, if_neg debugging]
      have upper := inHeap.2
      have small : lo.toNat < 2 ^ 63 := by omega
      obtain ⟨pre, post, tree, rfl, below, above, nodes, kept', step⟩ := kept.record_eq small (lo + size - 1) index p z
      have named : ∀ q ∈ pre ++ post, s.loAt q ≤ lo + size - 1 → lo ≤ s.hiAt q →
          Truthful m heap lo size (.error (.overlaps lo (lo + size - 1) (s.loAt q) (s.hiAt q))) := by
        intro q member starts reaches
        obtain ⟨owner, sum⟩ := kept.owner member
        rw [UInt64.le_iff_toNat_le, ends] at starts
        rw [UInt64.le_iff_toNat_le] at reaches
        exact ⟨rfl, _, _, owner, end_of_size _ _, by omega, by omega⟩
      rw [step]
      by_cases low : pre.getLastD 0 ≠ 0 ∧ lo ≤ s.hiAt (pre.getLastD 0)
      · rw [overlapOf, if_pos low]
        have inPre := getLastD_mem low.1
        have starts : s.loAt (pre.getLastD 0) ≤ lo + size - 1 := by
          have := UInt64.le_iff_toNat_le.mp (below _ inPre)
          rw [UInt64.le_iff_toNat_le, ends]
          omega
        exact ⟨_, _, _, rfl, named _ (List.mem_append_left _ inPre) starts low.2, kept'⟩
      · by_cases high : s.nextSeen (pre.getLastD 0) ≠ 0 ∧ s.loAt (s.nextSeen (pre.getLastD 0)) ≤ lo + size - 1
        · rw [overlapOf, if_neg low, if_pos high]
          obtain ⟨isHead, real, -⟩ := kept.nextSeen_eq.resolve_left high.1
          have inPost := headD_mem real
          rw [isHead] at high ⊢
          have reaches : lo ≤ s.hiAt (post.headD 0) :=
            UInt64.le_trans (UInt64.le_of_lt (above _ inPost)) (kept.fits _ (List.mem_append_right _ inPost)).1
          exact ⟨_, _, _, rfl, named _ (List.mem_append_right _ inPost) high.2 reaches, kept'⟩
        · rw [overlapOf, if_neg low, if_neg high]
          have starts : ∀ q ∈ pre, s.loAt q < lo := by
            intro q inPre
            obtain ⟨front, r, rfl⟩ := (List.eq_nil_or_concat' pre).resolve_left (List.ne_nil_of_mem inPre)
            rw [List.getLastD_concat] at low
            have inList : ∀ u, u ∈ front ++ [r] → u ∈ front ++ [r] ++ post := fun u => List.mem_append_left _
            have real : r ≠ 0 := by
              rintro rfl
              exact kept.real (inList 0 (by simp))
            have endsBelow : s.hiAt r < lo := UInt64.not_le.mp fun reaches => low ⟨real, reaches⟩
            have last : s.loAt r < lo := UInt64.lt_of_le_of_lt (kept.fits r (inList r (by simp))).1 endsBelow
            obtain inFront | isLast := List.mem_append.mp inPre |>.imp_right List.mem_singleton.mp
            · have ordered := (List.pairwise_append.mp kept.ordered).1
              have less := (List.pairwise_append.mp ordered).2.2 q inFront r (List.mem_singleton_self r)
              exact UInt64.lt_trans less last
            · rw [isLast]
              exact last
          have ordered : lo ≤ lo + size - 1 := by
            rw [UInt64.le_iff_toNat_le, ends]
            omega
          obtain ⟨s', inserted, kept''⟩ := kept'.insert ordered (by omega) starts above realP freshP realZ
            (nodes ▸ freshZ) index
          rw [size_of_end] at kept''
          exact ⟨.ok (), s', _, congrArg (Option.map (Except.ok (), ·)) inserted, ⟨aligned, inHeap⟩, kept''⟩
    · rw [if_pos ((outside_iff positive fit).mpr inHeap)]
      exact ⟨_, s, l, rfl, inHeap, kept⟩
  · rw [if_pos aligned]
    exact ⟨_, s, l, rfl, aligned, kept⟩

/-! ## Runs -/

/-- The payload is apart from every one that is recorded. -/
def Apart (m : Owners) (lo : Addr) (size : UInt64) : Prop :=
  ∀ lo' size' index, m lo' = some (size', index) →
    lo.toNat + size.toNat ≤ lo'.toNat ∨ lo'.toNat + size'.toNat ≤ lo.toNat

/-- A payload that is as it should be is not refused. -/
theorem Truthful.accepts {answer : Except RangeError Unit} (truthful : Truthful m heap lo size answer)
    (aligned : lo % alignment = 0) (inHeap : InHeap heap lo size) (apart : Apart m lo size) : answer = .ok () := by
  cases answer with
  | ok => rfl
  | error error =>
      exfalso
      cases error with
      | notAligned => exact truthful aligned
      | outsideHeap => exact truthful inHeap
      | overlaps =>
          obtain ⟨-, size', index, recorded, -, starts, reaches⟩ := truthful
          have := apart _ _ _ recorded
          omega

/-- The set of ranges, and the payloads whose `add_range` returned true and that were not removed
since, with their indexes. -/
structure Ledger where
  set : RangeSet
  owners : Owners

namespace Ledger

def start : Ledger := ⟨newRangeSet, fun _ => none⟩

def apply (debugMode : DebugMode) (r : Ledger) : RangeCall → Option (Except RangeError Unit × Ledger)
  | .add heap lo size index p z =>
      (r.set.addRange debugMode heap lo size index p z).map fun (answer, set) =>
        (answer, ⟨set, if answer.isOk then Function.update r.owners lo (some (size, index)) else r.owners⟩)
  | .remove lo => (r.set.removeRange lo).map fun set => (.ok (), ⟨set, Function.update r.owners lo none⟩)

/-- A payload of positive size that does not wrap around, at any address, and new addresses from
`malloc`. -/
def Admits (r : Ledger) : RangeCall → Prop
  | .add _ lo size _ p z => size ≠ 0 ∧ lo.toNat + size.toNat ≤ 2 ^ 64 ∧ p ≠ 0 ∧ p ∉ r.set.ranges ∧ z ≠ 0 ∧
      z ∉ r.set.loTree.nodes
  | .remove _ => True

instance (r : Ledger) : (c : RangeCall) → Decidable (r.Admits c)
  | .add _ lo size _ p z => inferInstanceAs (Decidable (size ≠ 0 ∧ lo.toNat + size.toNat ≤ 2 ^ 64 ∧ p ≠ 0 ∧
      p ∉ r.set.ranges ∧ z ≠ 0 ∧ z ∉ r.set.loTree.nodes))
  | .remove _ => isTrue trivial

def Step (debugMode : DebugMode) (r : Ledger) (c : RangeCall) (r' : Ledger) : Prop :=
  r.Admits c ∧ (r.apply debugMode c).map Prod.snd = some r'

/-- What a call reports is so. -/
def Reports (m : Owners) : RangeCall → Except RangeError Unit → Prop
  | .add heap lo size _ _ _, answer => Truthful m heap lo size answer ∧
      (lo % alignment = 0 → InHeap heap lo size → Apart m lo size → answer = .ok ())
  | .remove _, _ => True

/-- The ranges that are not freed are those of the payloads on record, in the order of the payloads.
The tree holds each under the address of its payload.  Two that follow each other are linked in both
directions or in none, and `list` is one that nothing leads to, or null. -/
def Intact (r : Ledger) : Prop :=
  ∃ l t, (∀ p, p ∈ r.set.ranges ↔ p ∈ l) ∧ 0 ∉ l ∧ l.Pairwise (r.set.loAt · < r.set.loAt ·) ∧
    (∀ lo size index, r.owners lo = some (size, index) ↔
      ∃ p ∈ l, r.set.loAt p = lo ∧ r.set.hiAt p - r.set.loAt p + 1 = size ∧ r.set.indexAt p = index) ∧
    r.set.loTree.SearchTree t ∧
    (inorder t).map (fun x => (r.set.loTree.keyAt x, r.set.loTree.recordAt x)) =
      l.map (fun p => (tkey (r.set.loAt p), p)) ∧
    Seamed r.set.nextAt r.set.prevAt 0 (0 :: (l ++ [0])) ∧ (r.set.list = 0 ∨ r.set.list ∈ l ∧ r.set.prevAt r.set.list = 0)

variable {r r' : Ledger} {c : RangeCall} {calls : List RangeCall}

theorem intact (kept : r.set.Kept r.owners l) : r.Intact := by
  obtain ⟨contents, ⟨t, st, holds⟩, binds⟩ := kept.tree
  have keys : ∀ q ∈ l, tkey (r.set.loAt q) = (r.set.loAt q).toNat := fun q member => by
    obtain ⟨le, user⟩ := kept.fits q member
    rw [UInt64.le_iff_toNat_le] at le
    exact tkey_of_lt (by omega)
  refine ⟨l, t, kept.live, kept.real, kept.ordered, kept.owners, st, ?_, kept.links, kept.head⟩
  apply eq_of_sorted_keys
  · exact List.pairwise_map.mpr st.sorted
  · refine List.pairwise_map.mpr (kept.ordered.imp_of_mem fun a b less => ?_)
    rw [keys _ a, keys _ b]
    exact Int.ofNat_lt.mpr (UInt64.lt_iff_toNat_lt.mp less)
  · rintro ⟨k, p⟩
    simp only [List.mem_map, Prod.mk.injEq]
    rw [← holds, binds]
    constructor
    · rintro ⟨member, isKey⟩
      exact ⟨p, member, isKey, rfl⟩
    · rintro ⟨q, member, isKey, rfl⟩
      exact ⟨member, isKey⟩

/-- **A call** returns, reports what is so and keeps the invariant. -/
theorem apply_kept (kept : r.set.Kept r.owners l) (debugging : debugMode ≠ .none) (admits : r.Admits c) :
    ∃ answer r' l', r.apply debugMode c = some (answer, r') ∧ Reports r.owners c answer ∧
      r'.set.Kept r'.owners l' := by
  cases c with
  | add heap lo size index p z =>
      obtain ⟨positive, fit, realP, freshP, realZ, freshZ⟩ := admits
      obtain ⟨answer, s', l', step, truthful, kept'⟩ := kept.add debugging heap positive fit realP freshP realZ freshZ index
      exact ⟨answer, ⟨s', _⟩, l', by rw [apply, step]; rfl, ⟨truthful, truthful.accepts⟩, kept'⟩
  | remove lo =>
      obtain ⟨s', l', step, kept'⟩ := kept.remove lo
      exact ⟨.ok (), ⟨s', _⟩, l', by rw [apply, step]; rfl, trivial, kept'⟩

/-- **The set of ranges holds under any payloads.**  After every run with debugging on, also one in
which payloads overlap or lie below all others, the ranges, the tree and the payloads on record
agree, and every call returns and reports what is so. -/
theorem payloads_kept (debugging : debugMode ≠ .none) (run : Run (Step debugMode) start calls r) :
    r.Intact ∧ ∀ c, r.Admits c → ∃ answer r', r.apply debugMode c = some (answer, r') ∧ Reports r.owners c answer := by
  obtain ⟨l, kept⟩ : ∃ l, r.set.Kept r.owners l := by
    refine run.invariant (fun r => ∃ l, r.set.Kept r.owners l) ⟨[], kept_start⟩ ?_
    rintro r c r' ⟨l, kept⟩ ⟨admits, applied⟩
    obtain ⟨answer, r₁, l', step, -, kept'⟩ := apply_kept kept debugging admits
    rw [step] at applied
    exact ⟨l', Option.some.inj applied ▸ kept'⟩
  refine ⟨intact kept, fun c admits => ?_⟩
  obtain ⟨answer, r', -, step, reports, -⟩ := apply_kept kept debugging admits
  exact ⟨answer, r', step, reports⟩

/-- The second payload overlaps the first one unnoticed, the third one is linked to the second. -/
def cutting : List RangeCall :=
  [.add someHeap 0x1040 16 0 1 1, .add someHeap 0x1030 32 1 2 2, .add someHeap 0x1050 16 2 3 3, .remove 0x1040]

theorem payloads_kept_cutting : ∃ r, Run (Step .cheap) start cutting r ∧ r.Intact ∧
    ∀ c, r.Admits c → ∃ answer r', r.apply .cheap c = some (answer, r') ∧ Reports r.owners c answer := by
  obtain ⟨r, computed⟩ : ∃ r, cutting.foldlM
      (fun r c => if r.Admits c then (r.apply .cheap c).map Prod.snd else none) start = some r := ⟨_, rfl⟩
  have run : Run (Step .cheap) start cutting r := Run.of_guarded computed
  exact ⟨r, run, payloads_kept (by decide) run⟩

end Ledger

end RangeSet

end SystemsLabs.Driver
