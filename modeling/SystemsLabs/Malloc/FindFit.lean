/-
# SystemsLabs.Malloc.FindFit -- `find_fit` on well-formed free lists

`Listed h bs lists` is all that the search relies on: the free lists, read forward, are
`lists` and hold the free blocks of `bs`.  `scanList_eq` and `scanClasses_eq` say what the
two loops compute on such lists: they end, and return the first block that is large enough.
`Listed.findFit` is the search as a whole: it returns a free block that fits, or null when
there is none.  A request for a positive multiple of 16 is fitted by every block of that size
or more (`findFit_complete`).
-/
import Mathlib.Data.Finset.Card
import Mathlib.Data.Finset.Range
import Mathlib.Data.List.FinRange
import SystemsLabs.Malloc.Layout

namespace SystemsLabs.Malloc

open SystemsLabs.Theory.PointerPath

set_option autoImplicit false

/-- `get_index` counts the class bounds up to the size. -/
theorem getIndex_val (size : Nat) :
    (getIndex size : Nat) = [64, 128, 256, 512, 1024, 2048, 4096].countP (· ≤ size) := by
  have range : size < 64 ∨ 64 ≤ size ∧ size < 128 ∨ 128 ≤ size ∧ size < 256 ∨
      256 ≤ size ∧ size < 512 ∨ 512 ≤ size ∧ size < 1024 ∨ 1024 ≤ size ∧ size < 2048 ∨
      2048 ≤ size ∧ size < 4096 ∨ 4096 ≤ size := by omega
  simp only [getIndex, Nat.reducePow, List.countP_cons, List.countP_nil, decide_eq_true_eq]
  rcases range with h | h | h | h | h | h | h | h
  all_goals
    simp (disch := omega) only [if_pos, if_neg]
    rfl

theorem getIndex_mono {small large : Nat} (le : small ≤ large) : getIndex small ≤ getIndex large := by
  rw [Fin.le_def, getIndex_val, getIndex_val]
  apply List.countP_mono_left
  intro bound _ reached
  simp only [decide_eq_true_eq] at reached ⊢
  omega

theorem mem_classes_from (first i : Fin numClasses) :
    i ∈ (List.finRange numClasses).drop first ↔ first ≤ i := by
  revert first i
  decide

/-- A free block that `find_fit` may return: blocks of minimum size are looked at for
requests of exactly that size only. -/
structure Block.Fits (b : Block) (asize : Nat) : Prop where
  free : b.alloc = false
  le : asize ≤ b.size
  min : b.size = minBlockSize → asize = minBlockSize

namespace Heap

variable {h : Heap} {L : Layout} {b : Block} {l : List Nat} {a asize fuel : Nat}

/-! ## Blocks of a well-formed heap -/

/-- A block of the heap, after its edge. -/
theorem WellFormed.blockAt (wf : h.WellFormed L) (member : b ∈ L.blocks) : ∃ e, h.BlockAt e b := by
  obtain ⟨pre, post, split⟩ := List.append_of_mem member
  have closed := wf.closed
  rw [split] at closed
  obtain ⟨e, -, rest⟩ := closed_append.mp closed
  exact ⟨e, (closed_cons.mp rest).1⟩

theorem WellFormed.getSize (wf : h.WellFormed L) (member : b ∈ L.blocks) :
    h.getSize b.addr = b.size := by
  obtain ⟨e, blockAt⟩ := wf.blockAt member
  exact blockAt.getSize (wf.spaced.legal b member).isSize

/-! ## Free lists, read forward -/

/-- Following the links of a bin from its head visits exactly `l` and ends with null. -/
def Forward (h : Heap) : Bin → List Nat → Prop
  | .seg i, l => Path h.next (h.segList i) l 0
  | .min j, l => Path h.minNext (h.minList j) l 0

/-- The free lists are `lists`: they end, they hold exactly the free blocks of `bs`, each in its
bin, and the headers of those give their sizes. -/
structure Listed (h : Heap) (bs : List Block) (lists : Bin → List Nat) : Prop where
  forward : ∀ bin, h.Forward bin (lists bin)
  holds : ∀ bin, (lists bin).Perm (freeIn bs bin)
  placed : ∀ b ∈ bs, b.alloc = false → 0 < b.addr ∧ b.addr < wordMod
  size : ∀ b ∈ bs, b.alloc = false → h.getSize b.addr = b.size

theorem WellFormed.listed {lists : Bin → List Nat} (wf : h.WellFormed L)
    (index : h.Indexed L.blocks lists) : h.Listed L.blocks lists where
  forward bin := by
    cases bin with
    | seg i => exact (index.linked (.seg i)).forward
    | min j => exact index.linked (.min j)
  holds := index.holds
  placed b member _ := by
    have legal := wf.spaced.legal b member
    exact ⟨legal.pos, by have := legal.fits; omega⟩
  size b member _ := wf.getSize member

namespace Listed

variable {bs : List Block} {lists : Bin → List Nat}

theorem block_of_mem (listed : h.Listed bs lists) {bin : Bin} {x : Nat} (member : x ∈ lists bin) :
    ∃ b ∈ bs, b.alloc = false ∧ b.bin = bin ∧ b.addr = x :=
  mem_freeIn.mp ((listed.holds bin).mem_iff.mp member)

theorem mem_of_block (listed : h.Listed bs lists) (member : b ∈ bs) (free : b.alloc = false) :
    b.addr ∈ lists b.bin :=
  (listed.holds b.bin).mem_iff.mpr (mem_freeIn.mpr ⟨b, member, free, rfl, rfl⟩)

theorem nonnull (listed : h.Listed bs lists) (bin : Bin) : 0 ∉ lists bin := by
  intro member
  obtain ⟨b, memB, free, -, zero⟩ := listed.block_of_mem member
  exact (listed.placed b memB free).1.ne' zero

/-- A list that ends visits no block twice, so it is shorter than the memory is large. -/
theorem length_lt (listed : h.Listed bs lists) (bin : Bin) : (lists bin).length < wordMod := by
  have nodup : (lists bin).Nodup := by
    have path := listed.forward bin
    cases bin with
    | seg i => exact path.nodup (listed.nonnull _)
    | min j => exact path.nodup (listed.nonnull _)
  have inside : (0 :: lists bin).toFinset ⊆ Finset.range wordMod := by
    intro x member
    rcases List.mem_cons.mp (List.mem_toFinset.mp member) with rfl | onList
    · exact Finset.mem_range.mpr wordMod_pos
    · obtain ⟨b, memB, free, -, rfl⟩ := listed.block_of_mem onList
      exact Finset.mem_range.mpr (listed.placed b memB free).2
  have := Finset.card_le_card inside
  rwa [List.toFinset_card_of_nodup (List.nodup_cons.mpr ⟨listed.nonnull bin, nodup⟩),
    Finset.card_range] at this

end Listed

/-! ## The loops of `find_fit` -/

/-- The inner loop returns the first block of its list that is large enough. -/
theorem scanList_eq (path : Path h.next a l 0) (nonempty : l ≠ []) (nonnull : 0 ∉ l)
    (enough : l.length ≤ fuel) :
    h.scanList asize fuel a = some ((l.find? fun x => asize ≤ h.getSize x).getD 0) := by
  induction l generalizing a fuel with
  | nil => exact absurd rfl nonempty
  | cons x rest ih =>
      obtain ⟨rfl, path⟩ := path
      obtain ⟨fuel, rfl⟩ : ∃ n, fuel = n + 1 := ⟨fuel - 1, by simp only [List.length_cons] at enough; omega⟩
      by_cases fits : asize ≤ h.getSize a
      · simp [scanList, fits]
      · rw [scanList, if_neg fits, List.find?_cons_of_neg (by simpa using fits)]
        cases rest with
        | nil =>
            have last : h.next a = 0 := path
            rw [if_pos last]
            rfl
        | cons y rest =>
            have notLast : h.next a ≠ 0 := by
              intro zero
              have first := path.1
              rw [zero] at first
              exact nonnull (by simp [first])
            rw [if_neg notLast]
            exact ih path (by simp) (fun m => nonnull (List.mem_cons_of_mem _ m)) (by simpa using enough)

/-- The outer loop returns the first block that is large enough in the lists it visits. -/
theorem scanClasses_eq {bs : List Block} {lists : Bin → List Nat} (listed : h.Listed bs lists)
    (classes : List (Fin numClasses)) :
    h.scanClasses asize classes =
      some (((classes.flatMap fun i => lists (.seg i)).find? fun x => asize ≤ h.getSize x).getD 0) := by
  induction classes with
  | nil => rfl
  | cons i rest ih =>
      have nonnull := listed.nonnull (.seg i)
      have short := Nat.le_of_lt (listed.length_lt (.seg i))
      have path : Path h.next (h.segList i) (lists (.seg i)) 0 := listed.forward (.seg i)
      rw [scanClasses, List.flatMap_cons, List.find?_append]
      by_cases empty : lists (.seg i) = []
      · have root : h.segList i = 0 := by
          rw [empty] at path
          exact path
        simp only [root, if_pos, empty, List.find?_nil, Option.none_or, ih]
      · have root : h.segList i ≠ 0 := by
          obtain ⟨x, l, shape⟩ := List.exists_cons_of_ne_nil empty
          rw [shape] at path nonnull
          rw [path.1]
          exact fun zero => nonnull (by simp [zero])
        simp only [if_neg root, scanList_eq path empty nonnull short]
        cases found : (lists (.seg i)).find? fun x => decide (asize ≤ h.getSize x) with
        | none => simpa using ih
        | some x =>
            have ne : x ≠ 0 := fun zero => nonnull (zero ▸ List.mem_of_find?_eq_some found)
            simp [ne]

/-- The first nonempty bucket of minimum-size blocks. -/
theorem firstMinBlock_spec {bs : List Block} {lists : Bin → List Nat} (listed : h.Listed bs lists) :
    (h.firstMinBlock ≠ 0 → ∃ j, h.firstMinBlock ∈ lists (.min j)) ∧
      (h.firstMinBlock = 0 → ∀ j, h.minList j = 0) := by
  unfold firstMinBlock
  cases found : ((List.finRange numMinLists).map h.minList).find? (· ≠ 0) with
  | none =>
      refine ⟨fun ne => absurd rfl ne, fun _ j => ?_⟩
      have := List.find?_eq_none.mp found (h.minList j) (List.mem_map_of_mem (List.mem_finRange j))
      simpa using this
  | some x =>
      have ne : x ≠ 0 := by simpa using List.find?_some found
      obtain ⟨j, -, root⟩ := List.mem_map.mp (List.mem_of_find?_eq_some found)
      refine ⟨fun _ => ⟨j, ?_⟩, fun zero => absurd zero ne⟩
      have path : Path h.minNext (h.minList j) (lists (.min j)) 0 := listed.forward (.min j)
      have first := path.headD
      cases shape : lists (.min j) with
      | nil =>
          rw [shape, List.headD_nil] at first
          exact absurd (root.symm.trans first.symm) ne
      | cons y rest =>
          rw [shape, List.headD_cons] at first
          simp [first, root]

/-- **`find_fit`** returns a free block that fits, or null if there is none. -/
theorem Listed.findFit {bs : List Block} {lists : Bin → List Nat} (listed : h.Listed bs lists)
    (asize : Nat) : ∃ x, h.findFit asize = some x ∧
      ((x = 0 ∧ ∀ b ∈ bs, ¬ b.Fits asize) ∨ ∃ b ∈ bs, b.Fits asize ∧ x = b.addr) := by
  obtain ⟨someMin, noMin⟩ := firstMinBlock_spec listed
  unfold Heap.findFit
  by_cases small : asize = minBlockSize ∧ h.firstMinBlock ≠ 0
  · rw [if_pos small]
    obtain ⟨j, member⟩ := someMin small.2
    obtain ⟨b, memB, free, bin, addr⟩ := listed.block_of_mem member
    have size : b.size = minBlockSize := by
      by_contra notMin
      rw [Block.bin, if_neg notMin] at bin
      cases bin
    exact ⟨_, rfl, Or.inr ⟨b, memB, ⟨free, (small.1.trans size.symm).le, fun _ => small.1⟩, addr.symm⟩⟩
  · rw [if_neg small, scanClasses_eq listed]
    cases found : (((List.finRange numClasses).drop (getIndex asize)).flatMap
        fun i => lists (.seg i)).find? fun x => decide (asize ≤ h.getSize x) with
    | none =>
        refine ⟨0, rfl, Or.inl ⟨rfl, ?_⟩⟩
        intro b memB fits
        have inList := listed.mem_of_block memB fits.free
        by_cases isMin : b.size = minBlockSize
        · have empty : h.firstMinBlock = 0 := by
            by_contra ne
            exact small ⟨fits.min isMin, ne⟩
          rw [Block.bin, if_pos isMin] at inList
          have path : Path h.minNext (h.minList (minIndex b.addr)) (lists (.min (minIndex b.addr))) 0 :=
            listed.forward (.min _)
          obtain ⟨x, l, shape⟩ := List.exists_cons_of_ne_nil (List.ne_nil_of_mem inList)
          have nonnull := listed.nonnull (.min (minIndex b.addr))
          rw [noMin empty, shape] at path
          rw [shape] at nonnull
          exact nonnull (by simp [← path.1])
        · rw [Block.bin, if_neg isMin] at inList
          have visited : b.addr ∈ ((List.finRange numClasses).drop (getIndex asize)).flatMap
              fun i => lists (.seg i) :=
            List.mem_flatMap.mpr ⟨_, (mem_classes_from ..).mpr (getIndex_mono fits.le), inList⟩
          have := List.find?_eq_none.mp found b.addr visited
          rw [listed.size b memB fits.free] at this
          exact this (by simpa using fits.le)
    | some x =>
        obtain ⟨i, -, member⟩ := List.mem_flatMap.mp (List.mem_of_find?_eq_some found)
        obtain ⟨b, memB, free, bin, addr⟩ := listed.block_of_mem member
        have large : asize ≤ h.getSize x := by simpa using List.find?_some found
        have notMin : b.size ≠ minBlockSize := by
          intro isMin
          rw [Block.bin, if_pos isMin] at bin
          cases bin
        rw [← addr, listed.size b memB free] at large
        exact ⟨x, rfl, Or.inr ⟨b, memB, ⟨free, large, fun isMin => absurd isMin notMin⟩, addr.symm⟩⟩

/-- A block of minimum size is large enough for no larger request, so it is no loss that it is
not looked at for one. -/
theorem fits_iff (positive : 0 < asize) (aligned : asize % 16 = 0) :
    b.Fits asize ↔ b.alloc = false ∧ asize ≤ b.size := by
  constructor
  · intro fits
    exact ⟨fits.free, fits.le⟩
  · rintro ⟨free, le⟩
    refine ⟨free, le, ?_⟩
    intro isMin
    have minimum : minBlockSize = 16 := rfl
    omega

theorem findFit_spec (wf : h.WellFormed L) (asize : Nat) :
    ∃ x, h.findFit asize = some x ∧
      ((x = 0 ∧ ∀ b ∈ L.blocks, ¬ b.Fits asize) ∨ ∃ b ∈ L.blocks, b.Fits asize ∧ x = b.addr) := by
  obtain ⟨lists, index⟩ := wf.indexed
  exact (wf.listed index).findFit asize

end Heap

end SystemsLabs.Malloc
