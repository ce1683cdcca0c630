/-
# SystemsLabs.Malloc.Blocks -- blocks, and free lists that index them

A `Block` is the reading of one header: address, size, status.  `Indexed h bs lists`
says that the free lists of `h` hold exactly the free blocks of `bs`, each once and
in the bin its size or address selects.  `bs` need not be the whole heap: while a
block is being merged or split it is in no list, and `bs` leaves it out.

`Indexed.pop` and `Indexed.push` are the two operations on an index, and
`Indexed.congr` is its frame rule.  Each keeps every byte that is not in a link word
of a free block (`Linkless`).
-/
import Mathlib.Data.List.Perm.Basic
import SystemsLabs.Malloc.FreeList

namespace SystemsLabs.Malloc

open SystemsLabs.Theory.ByteMemory
open SystemsLabs.Theory.PointerPath

set_option autoImplicit false

/-- One block of the heap, as its header describes it. -/
structure Block where
  addr : Nat
  size : Nat
  alloc : Bool
deriving DecidableEq, Repr

/-- The heads of free lists: the size classes and the buckets of minimum-size blocks. -/
inductive Bin where
  | seg (i : Fin numClasses)
  | min (j : Fin numMinLists)
deriving DecidableEq, Repr

namespace Block

/-- The one bin a free block belongs to. -/
def bin (b : Block) : Bin :=
  if b.size = minBlockSize then .min (minIndex b.addr) else .seg (getIndex b.size)

/-- Bytes of link words in a free block, from 8 on. -/
def linkWidth (b : Block) : Nat := if b.size = minBlockSize then 8 else 16

/-- A block of legal size inside the address space. -/
structure Legal (b : Block) : Prop where
  pos : 0 < b.addr
  size_pos : 0 < b.size
  aligned : b.size % 16 = 0
  fits : b.addr + b.size < wordMod

theorem Legal.isSize {b : Block} (legal : b.Legal) : IsSize b.size :=
  ⟨legal.aligned, by have := legal.fits; omega⟩

theorem Legal.le_size {b : Block} (legal : b.Legal) : 16 ≤ b.size := by
  have := legal.size_pos
  have := legal.aligned
  omega

/-- The link words of a legal block end before its last word, the footer, unless the
block has minimum size and no footer. -/
theorem Legal.linkWidth_le {b : Block} (legal : b.Legal) :
    8 + b.linkWidth ≤ b.size ∧ (b.size ≠ minBlockSize → 8 + b.linkWidth ≤ b.size - 8) := by
  have := legal.le_size
  have := legal.aligned
  unfold linkWidth
  split <;> simp only [minBlockSize, dsize, wsize] at * <;> omega

end Block

/-- Legal blocks in increasing order of address, none overlapping the next. -/
structure Spaced (bs : List Block) : Prop where
  legal : ∀ b ∈ bs, b.Legal
  ordered : bs.Pairwise fun b c => b.addr + b.size ≤ c.addr

namespace Spaced

variable {bs cs pre post : List Block} {b c : Block}

theorem sublist (spaced : Spaced bs) (sub : cs.Sublist bs) : Spaced cs :=
  ⟨fun b member => spaced.legal b (sub.subset member), spaced.ordered.sublist sub⟩

theorem before (spaced : Spaced (pre ++ b :: post)) : ∀ c ∈ pre, c.addr + c.size ≤ b.addr :=
  fun c member => (List.pairwise_append.mp spaced.ordered).2.2 c member b (List.mem_cons_self ..)

theorem after (spaced : Spaced (pre ++ b :: post)) : ∀ c ∈ post, b.addr + b.size ≤ c.addr :=
  fun c member => (List.pairwise_cons.mp (List.pairwise_append.mp spaced.ordered).2.1).1 c member

/-- Two blocks of the heap are the same or do not overlap. -/
theorem apart (spaced : Spaced bs) (memB : b ∈ bs) (memC : c ∈ bs) :
    c = b ∨ b.addr + b.size ≤ c.addr ∨ c.addr + c.size ≤ b.addr := by
  obtain ⟨pre, post, rfl⟩ := List.append_of_mem memB
  rcases List.mem_append.mp memC with inPre | inRest
  · exact Or.inr (Or.inr (spaced.before c inPre))
  · rcases List.mem_cons.mp inRest with rfl | inPost
    · exact Or.inl rfl
    · exact Or.inr (Or.inl (spaced.after c inPost))

theorem addr_injective (spaced : Spaced bs) (memB : b ∈ bs) (memC : c ∈ bs)
    (same : c.addr = b.addr) : c = b := by
  have := (spaced.legal b memB).size_pos
  have := (spaced.legal c memC).size_pos
  rcases spaced.apart memB memC with rfl | h | h
  · rfl
  all_goals omega

end Spaced

/-! ## Link words -/

namespace Bin

/-- Bytes of link words in the blocks of a bin. -/
def width : Bin → Nat
  | .seg _ => 16
  | .min _ => 8

end Bin

theorem Block.width_bin (b : Block) : b.bin.width = b.linkWidth := by
  unfold Block.bin Block.linkWidth
  split <;> rfl

/-- The addresses of the free blocks of `bs` that belong to `bin`. -/
def freeIn (bs : List Block) (bin : Bin) : List Nat :=
  (bs.filter fun b => !b.alloc && b.bin = bin).map Block.addr

/-- A byte of a link word of a free block. -/
def LinkByte (bs : List Block) (a : Nat) : Prop :=
  ∃ b ∈ bs, b.alloc = false ∧ b.addr + 8 ≤ a ∧ a < b.addr + 8 + b.linkWidth

namespace Spaced

variable {bs : List Block} {c : Block}

theorem header_linkless (spaced : Spaced bs) (member : c ∈ bs) {a : Nat}
    (lo : c.addr ≤ a) (hi : a < c.addr + 8) : ¬ LinkByte bs a := by
  rintro ⟨d, memD, -, inLo, inHi⟩
  have := (spaced.legal c member).le_size
  have := (spaced.legal d memD).linkWidth_le.1
  rcases spaced.apart member memD with rfl | apart | apart
  all_goals omega

theorem footer_linkless (spaced : Spaced bs) (member : c ∈ bs)
    (notMin : c.size ≠ minBlockSize) {a : Nat} (lo : c.addr + c.size - wsize ≤ a)
    (hi : a < c.addr + c.size) : ¬ LinkByte bs a := by
  rintro ⟨d, memD, -, inLo, inHi⟩
  have := (spaced.legal c member).le_size
  have footer := (spaced.legal c member).linkWidth_le.2 notMin
  have := (spaced.legal d memD).linkWidth_le.1
  simp only [wsize] at lo
  rcases spaced.apart member memD with rfl | apart | apart
  all_goals omega

theorem payload_linkless (spaced : Spaced bs) (member : c ∈ bs)
    (alloc : c.alloc = true) {a : Nat} (lo : c.addr ≤ a) (hi : a < c.addr + c.size) :
    ¬ LinkByte bs a := by
  rintro ⟨d, memD, free, inLo, inHi⟩
  have := (spaced.legal d memD).linkWidth_le.1
  rcases spaced.apart member memD with rfl | apart | apart
  · rw [alloc] at free
    cases free
  all_goals omega

end Spaced

section FreeIn

variable {bs cs : List Block} {bin : Bin}

theorem mem_freeIn {x : Nat} :
    x ∈ freeIn bs bin ↔ ∃ b ∈ bs, b.alloc = false ∧ b.bin = bin ∧ b.addr = x := by
  simp [freeIn, and_assoc]

theorem freeIn_append : freeIn (bs ++ cs) bin = freeIn bs bin ++ freeIn cs bin := by
  simp [freeIn]

theorem freeIn_cons_alloc {b : Block} (alloc : b.alloc = true) :
    freeIn (b :: bs) bin = freeIn bs bin := by
  simp [freeIn, alloc]

theorem freeIn_cons_bin {b : Block} (free : b.alloc = false) :
    freeIn (b :: bs) b.bin = b.addr :: freeIn bs b.bin := by
  simp [freeIn, free]

theorem freeIn_cons_ne {b : Block} (ne : bin ≠ b.bin) : freeIn (b :: bs) bin = freeIn bs bin := by
  simp [freeIn, Ne.symm ne]

end FreeIn

namespace Heap

/-- The head of a bin's list. -/
def binHead (h : Heap) : Bin → Nat
  | .seg i => h.segList i
  | .min j => h.minList j

/-- `l` is the free list of `bin`: doubly linked for a size class, singly linked for a
bucket of minimum-size blocks. -/
def Linked (h : Heap) : Bin → List Nat → Prop
  | .seg i, l => TwoWay h.next h.prev 0 (h.segList i) l
  | .min j, l => Path h.minNext (h.minList j) l 0

/-- The free lists hold exactly the free blocks of `bs`, each once and in its bin. -/
structure Indexed (h : Heap) (bs : List Block) (lists : Bin → List Nat) : Prop where
  linked : ∀ bin, h.Linked bin (lists bin)
  holds : ∀ bin, (lists bin).Perm (freeIn bs bin)

/-- Only link words of free blocks of `bs`, and list heads, may differ. -/
structure Linkless (h h' : Heap) (bs : List Block) : Prop where
  mem : ∀ a, ¬ LinkByte bs a → h'.mem a = h.mem a
  brk : h'.brk = h.brk
  maxAddr : h'.maxAddr = h.maxAddr
  heapStart : h'.heapStart = h.heapStart
  heapEnd : h'.heapEnd = h.heapEnd

variable {h h' : Heap} {bs cs pre post : List Block} {lists : Bin → List Nat} {b : Block}

theorem Relinked.linkless {nodes : List Nat} {bin : Bin} (relinked : Relinked h h' nodes bin.width)
    (blocks : ∀ y ∈ nodes, ∃ b ∈ bs, b.alloc = false ∧ b.bin = bin ∧ b.addr = y) :
    Linkless h h' bs where
  mem a off := relinked.mem a fun y member => by
    obtain ⟨b, memB, free, rfl, rfl⟩ := blocks y member
    by_contra inside
    rw [b.width_bin] at inside
    exact off ⟨b, memB, free, by omega, by omega⟩
  brk := relinked.brk
  maxAddr := relinked.maxAddr
  heapStart := relinked.heapStart
  heapEnd := relinked.heapEnd

/-! ## The index -/

theorem Linked.congr {bin : Bin} {l : List Nat} (list : h.Linked bin l)
    (head : h'.binHead bin = h.binHead bin)
    (same : ∀ y ∈ l, ∀ a, y + 8 ≤ a → a < y + 8 + bin.width → h'.mem a = h.mem a) :
    h'.Linked bin l := by
  cases bin with
  | seg i =>
      have heads : h'.segList i = h.segList i := head
      simp only [Linked] at list ⊢
      rw [heads]
      refine list.congr (fun y member => ?_) (fun y member => ?_)
      · exact word_congr fun a lo hi => same y member a (by simp only [dsize, wsize] at *; omega)
          (by simp only [dsize, wsize, Bin.width] at *; omega)
      · exact word_congr fun a lo hi => same y member a (by simp only [wsize] at *; omega)
          (by simp only [wsize, Bin.width] at *; omega)
  | min j =>
      have heads : h'.minList j = h.minList j := head
      simp only [Linked] at list ⊢
      rw [heads]
      apply list.congr
      intro y member
      exact word_congr fun a lo hi => same y member a (by simp only [wsize] at *; omega)
        (by simp only [wsize, Bin.width] at *; omega)

/-- Nodes that are blocks of a spaced list are well placed. -/
theorem placed_of_blocks {nodes : List Nat} (spaced : Spaced bs)
    (blocks : ∀ y ∈ nodes, ∃ b ∈ bs, b.addr = y) : Placed nodes where
  nonnull member := by
    obtain ⟨b, memB, zero⟩ := blocks 0 member
    have := (spaced.legal b memB).pos
    omega
  apart y memY z memZ ne := by
    obtain ⟨b, memB, rfl⟩ := blocks y memY
    obtain ⟨c, memC, rfl⟩ := blocks z memZ
    have := (spaced.legal b memB).le_size
    have := (spaced.legal c memC).le_size
    unfold Apart
    rcases spaced.apart memB memC with rfl | h | h
    · exact absurd rfl ne
    all_goals omega
  fits y member := by
    obtain ⟨b, memB, rfl⟩ := blocks y member
    have := (spaced.legal b memB).fits
    omega

namespace Indexed

theorem block_of_mem (index : Indexed h bs lists) {bin : Bin} :
    ∀ y ∈ lists bin, ∃ b ∈ bs, b.alloc = false ∧ b.bin = bin ∧ b.addr = y :=
  fun _ member => mem_freeIn.mp ((index.holds bin).mem_iff.mp member)

/-- An index survives every change off the link words of the blocks it indexes. -/
theorem congr (index : Indexed h bs lists) (heads : ∀ bin, h'.binHead bin = h.binHead bin)
    (same : ∀ a, LinkByte bs a → h'.mem a = h.mem a) : Indexed h' bs lists where
  linked bin := (index.linked bin).congr (heads bin) fun y member a lo hi => by
    obtain ⟨b, memB, free, rfl, rfl⟩ := index.block_of_mem y member
    exact same a ⟨b, memB, free, lo, b.width_bin ▸ hi⟩
  holds := index.holds

/-- Allocated blocks are in no list. -/
theorem alloc_iff (alloc : b.alloc = true) :
    Indexed h (pre ++ b :: post) lists ↔ Indexed h (pre ++ post) lists := by
  have same : ∀ bin, freeIn (pre ++ b :: post) bin = freeIn (pre ++ post) bin := by
    intro bin
    rw [freeIn_append, freeIn_append, freeIn_cons_alloc alloc]
  constructor
  · intro index
    exact ⟨index.linked, fun bin => same bin ▸ index.holds bin⟩
  · intro index
    exact ⟨index.linked, fun bin => (same bin).symm ▸ index.holds bin⟩

end Indexed

/-! ## `pop` and `push` on an index -/

/-- `pop_seg` and `pop_min` as one statement about the block's bin. -/
theorem pop_bin {l₁ l₂ : List Nat} (size : h.getSize b.addr = b.size)
    (list : h.Linked b.bin (l₁ ++ b.addr :: l₂)) (placed : Placed (l₁ ++ b.addr :: l₂)) :
    ∃ h', h.pop b.addr = some h' ∧ h'.Linked b.bin (l₁ ++ l₂) ∧
      Relinked h h' (l₁ ++ b.addr :: l₂) b.bin.width ∧
      ∀ bin, bin ≠ b.bin → h'.binHead bin = h.binHead bin := by
  by_cases isMin : b.size = minBlockSize
  · have bin : b.bin = .min (minIndex b.addr) := if_pos isMin
    rw [bin] at list ⊢
    obtain ⟨h', popped, list', relinked, segs, mins⟩ := pop_min (size.trans isMin) list placed
    refine ⟨h', popped, list', relinked, fun other ne => ?_⟩
    cases other with
    | seg i => exact congrFun segs i
    | min j => exact mins j fun e => ne (e ▸ rfl)
  · have bin : b.bin = .seg (getIndex b.size) := if_neg isMin
    rw [bin] at list ⊢
    obtain ⟨h', popped, list', relinked, mins, segs⟩ :=
      pop_seg (size ▸ isMin) (congrArg getIndex size) list placed
    refine ⟨h', popped, list', relinked, fun other ne => ?_⟩
    cases other with
    | seg i => exact segs i fun e => ne (e ▸ rfl)
    | min j => exact congrFun mins j

theorem push_bin {l : List Nat} (size : h.getSize b.addr = b.size) (list : h.Linked b.bin l)
    (placed : Placed (b.addr :: l)) (off : b.addr ∉ l) :
    (h.push b.addr).Linked b.bin (b.addr :: l) ∧
      Relinked h (h.push b.addr) (b.addr :: l) b.bin.width ∧
      ∀ bin, bin ≠ b.bin → (h.push b.addr).binHead bin = h.binHead bin := by
  by_cases isMin : b.size = minBlockSize
  · have bin : b.bin = .min (minIndex b.addr) := if_pos isMin
    rw [bin] at list ⊢
    obtain ⟨list', relinked, segs, mins⟩ := push_min (size.trans isMin) list placed off
    refine ⟨list', relinked, fun other ne => ?_⟩
    cases other with
    | seg i => exact congrFun segs i
    | min j => exact mins j fun e => ne (e ▸ rfl)
  · have bin : b.bin = .seg (getIndex b.size) := if_neg isMin
    rw [bin] at list ⊢
    obtain ⟨list', relinked, mins, segs⟩ :=
      push_seg (size ▸ isMin) (congrArg getIndex size) list placed off
    refine ⟨list', relinked, fun other ne => ?_⟩
    cases other with
    | seg i => exact segs i fun e => ne (e ▸ rfl)
    | min j => exact congrFun mins j

/-- An operation on one bin leaves the lists of all other bins alone: their blocks do
not overlap the blocks of this one. -/
theorem Linked.other {bin other : Bin} {nodes l : List Nat} (list : h.Linked other l)
    (ne : other ≠ bin) (spaced : Spaced bs) (relinked : Relinked h h' nodes bin.width)
    (head : h'.binHead other = h.binHead other)
    (inBin : ∀ y ∈ nodes, ∃ b ∈ bs, b.alloc = false ∧ b.bin = bin ∧ b.addr = y)
    (inOther : ∀ y ∈ l, ∃ b ∈ bs, b.alloc = false ∧ b.bin = other ∧ b.addr = y) :
    h'.Linked other l := by
  refine list.congr head fun y member a lo hi => relinked.mem a fun z memZ => ?_
  obtain ⟨b, memB, -, rfl, rfl⟩ := inOther y member
  obtain ⟨c, memC, -, rfl, rfl⟩ := inBin z memZ
  rw [b.width_bin] at hi
  rw [c.width_bin]
  have := (spaced.legal b memB).linkWidth_le.1
  have := (spaced.legal c memC).linkWidth_le.1
  rcases spaced.apart memB memC with rfl | h | h
  · exact absurd rfl ne
  all_goals omega

/-- **`pop` takes a free block out of the index.** -/
theorem Indexed.pop (index : Indexed h (pre ++ b :: post) lists) (spaced : Spaced (pre ++ b :: post))
    (free : b.alloc = false) (size : h.getSize b.addr = b.size) :
    ∃ h' lists', h.pop b.addr = some h' ∧ Indexed h' (pre ++ post) lists' ∧
      Linkless h h' (pre ++ b :: post) := by
  have member : b.addr ∈ lists b.bin :=
    (index.holds b.bin).mem_iff.mpr (mem_freeIn.mpr ⟨b, by simp, free, rfl, rfl⟩)
  obtain ⟨l₁, l₂, split⟩ := List.append_of_mem member
  have placed : Placed (lists b.bin) := placed_of_blocks spaced fun y memY => by
    obtain ⟨c, memC, -, -, same⟩ := index.block_of_mem y memY
    exact ⟨c, memC, same⟩
  have list := index.linked b.bin
  have inBin : ∀ y ∈ lists b.bin, _ := index.block_of_mem
  have perm := index.holds b.bin
  rw [split] at placed list inBin perm
  obtain ⟨h', popped, list', relinked, heads⟩ := pop_bin size list placed
  refine ⟨h', Function.update lists b.bin (l₁ ++ l₂), popped, ⟨fun bin => ?_, fun bin => ?_⟩,
    relinked.linkless inBin⟩
  · by_cases same : bin = b.bin
    · subst same
      rwa [Function.update_self]
    · rw [Function.update_of_ne same]
      exact (index.linked bin).other same spaced relinked (heads bin same) inBin
        index.block_of_mem
  · by_cases same : bin = b.bin
    · subst same
      rw [Function.update_self, freeIn_append]
      rw [freeIn_append, freeIn_cons_bin free] at perm
      exact (List.perm_middle.symm.trans (perm.trans List.perm_middle)).cons_inv
    · rw [Function.update_of_ne same]
      simpa only [freeIn_append, freeIn_cons_ne same] using index.holds bin

/-- **`push` puts a free block into the index.** -/
theorem Indexed.push (index : Indexed h (pre ++ post) lists) (spaced : Spaced (pre ++ b :: post))
    (free : b.alloc = false) (size : h.getSize b.addr = b.size) :
    ∃ lists', Indexed (h.push b.addr) (pre ++ b :: post) lists' ∧
      Linkless h (h.push b.addr) (pre ++ b :: post) := by
  have sub : ∀ c ∈ pre ++ post, c ∈ pre ++ b :: post := by
    intro c member
    rw [List.mem_append] at member ⊢
    exact member.imp_right (List.mem_cons_of_mem _)
  have lift : ∀ bin, ∀ y ∈ lists bin, ∃ c ∈ pre ++ b :: post, c.alloc = false ∧ c.bin = bin ∧ c.addr = y :=
    fun bin y member => by
      obtain ⟨c, memC, rest⟩ := index.block_of_mem y member
      exact ⟨c, sub c memC, rest⟩
  have off : b.addr ∉ lists b.bin := by
    intro member
    obtain ⟨c, memC, -, -, same⟩ := index.block_of_mem b.addr member
    have gap := List.mem_append.mp memC
    have := (spaced.legal b (by simp)).size_pos
    have := (spaced.legal c (sub c memC)).size_pos
    rcases gap with inPre | inPost
    · have := spaced.before c inPre
      omega
    · have := spaced.after c inPost
      omega
  have inBin : ∀ y ∈ b.addr :: lists b.bin,
      ∃ c ∈ pre ++ b :: post, c.alloc = false ∧ c.bin = b.bin ∧ c.addr = y := by
    intro y member
    rcases List.mem_cons.mp member with rfl | inList
    · exact ⟨b, by simp, free, rfl, rfl⟩
    · exact lift b.bin y inList
  have placed : Placed (b.addr :: lists b.bin) := placed_of_blocks spaced fun y member => by
    obtain ⟨c, memC, -, -, same⟩ := inBin y member
    exact ⟨c, memC, same⟩
  obtain ⟨list', relinked, heads⟩ := push_bin size (index.linked b.bin) placed off
  refine ⟨Function.update lists b.bin (b.addr :: lists b.bin), ⟨fun bin => ?_, fun bin => ?_⟩,
    relinked.linkless inBin⟩
  · by_cases same : bin = b.bin
    · subst same
      rwa [Function.update_self]
    · rw [Function.update_of_ne same]
      exact (index.linked bin).other same spaced relinked (heads bin same) inBin (lift bin)
  · by_cases same : bin = b.bin
    · subst same
      rw [Function.update_self, freeIn_append, freeIn_cons_bin free]
      exact ((index.holds b.bin).trans (by rw [freeIn_append])).cons _ |>.trans List.perm_middle.symm
    · rw [Function.update_of_ne same]
      simpa only [freeIn_append, freeIn_cons_ne same] using index.holds bin

end Heap

end SystemsLabs.Malloc
