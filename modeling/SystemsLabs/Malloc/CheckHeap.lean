/-
# SystemsLabs.Malloc.CheckHeap -- the heap checker `mm_checkheap`

`mmCheckheap` is the debugging check of `mm.c`: a walk over the headers, a look at the
epilogue, and a walk over all free lists.  The first test that fails decides, and its
complaint is the result (`HeapFault`); `.ok ()` is `true`.

`Intact h lo L` is a sound heap that fills its segment: the prologue is the word at `lo`
and the first block follows it.  Calls of the allocator keep it (`InitialAt.intact`).  On an
intact heap every test passes but one: the checker wants the epilogue to read `0x1`,
although its flags describe the last block, so it accepts exactly the heaps whose
epilogue has both flags clear (`mmCheckheap_iff`).
-/
import Mathlib.Algebra.BigOperators.Group.List.Basic
import SystemsLabs.Malloc.FindFit
import SystemsLabs.Malloc.Session

namespace SystemsLabs.Malloc

open SystemsLabs.Theory.ByteMemory
open SystemsLabs.Theory.PointerPath
open SystemsLabs.Theory.Runs

set_option autoImplicit false

/-- The complaint that `mm_checkheap` prints before it returns false. -/
inductive HeapFault where
  | prologueMissing
  | unalignedAddress
  | blockOutOfBounds
  | footerSize
  | footerAlloc
  | footerPrevAlloc
  | uncoalesced
  | prevAllocMismatch
  | prevMinMismatch
  | startPrevAlloc
  | heapEndNotMaintained
  | epilogueFailed
  | zeroFreeBlocks
  | linkOutOfBounds
  | allocatedElement
  | brokenLinks
  | countMismatch
deriving DecidableEq, Repr

namespace Heap

/-! ## The checker -/

/-- `mem_heap_hi`, the last heap byte. -/
def heapHi (h : Heap) : Nat := h.brk - 1

/-- Only free blocks that are not of minimum size have footers. -/
def footerFault (h : Heap) (block : Nat) : Option HeapFault :=
  if h.getAlloc block = false ∧ h.getSize block ≠ minBlockSize then
    let footer := h.word (h.headerToFooter block)
    if extractSize footer ≠ h.getSize block then some .footerSize
    else if extractAlloc footer ≠ h.getAlloc block then some .footerAlloc
    else if extractPrevAlloc footer ≠ h.getPrevAlloc block then some .footerPrevAlloc
    else none
  else none

/-- What the header says of the block before it; the first header is compared with nothing. -/
def neighbourFault (h : Heap) (prev block : Nat) : Option HeapFault :=
  if h.heapStart ≠ block then
    if h.getAlloc block = false ∧ h.getAlloc prev = false then some .uncoalesced
    else if h.getPrevAlloc block ≠ h.getAlloc prev then some .prevAllocMismatch
    else if h.getPrevMin block = true ∧ h.getSize prev ≠ dsize then some .prevMinMismatch
    else none
  else if h.header block &&& 0x2 ≠ 0x2 ∧ h.header (h.findNext block) ≠ 0x1 then some .startPrevAlloc
  else none

/-- The tests on one block, `prev` being the block before it. -/
def blockFault (h : Heap) (heapLo prev block : Nat) : Option HeapFault :=
  if block % wsize ≠ 0 then some .unalignedAddress
  else if block ≤ heapLo ∨ block ≥ h.heapHi then some .blockOutOfBounds
  else (h.footerFault block).or (h.neighbourFault prev block)

/-- The walk over the headers: where it ends, and `free_blocks`. -/
def checkBlocks (h : Heap) (heapLo : Nat) : Nat → Nat → Nat → Nat → Option (Except HeapFault (Nat × Nat))
  | 0, _, _, _ => none
  | fuel + 1, prev, block, freeBlocks =>
      if h.getSize block > 0 then
        match h.blockFault heapLo prev block with
        | some fault => some (.error fault)
        | none => h.checkBlocks heapLo fuel block (h.findNext block)
            (if h.getAlloc block then freeBlocks else freeBlocks + 1)
      else some (.ok (block, freeBlocks))

/-- The blocks of one bucket of `minList`, which are only counted. -/
def countMinList (h : Heap) : Nat → Nat → Option Nat
  | 0, _ => none
  | fuel + 1, tmp =>
      if tmp = 0 then some 0 else (h.countMinList fuel (h.minNext tmp)).map (· + 1)

def countMinLists (h : Heap) : List (Fin numMinLists) → Option Nat
  | [] => some 0
  | i :: rest => do
      let count ← h.countMinList wordMod (h.minList i)
      let others ← h.countMinLists rest
      some (count + others)

/-- One list of `segList`.  `prev_block` is read through at every element but the first and
the last. -/
def checkSegList (h : Heap) (heapLo root : Nat) : Nat → Nat → Option (Except HeapFault Nat)
  | 0, _ => none
  | fuel + 1, tmp =>
      let prevBlock := h.prev tmp
      let nextBlock := h.next tmp
      if tmp ≥ h.heapHi ∨ tmp ≤ heapLo then some (.error .linkOutOfBounds)
      else if h.getAlloc tmp then some (.error .allocatedElement)
      else if tmp ≠ root ∧ nextBlock ≠ 0 ∧ prevBlock = 0 then none
      else if tmp ≠ root ∧ nextBlock ≠ 0 ∧ h.prev nextBlock ≠ h.next prevBlock then
        some (.error .brokenLinks)
      else if nextBlock = 0 then some (.ok 1)
      else (h.checkSegList heapLo root fuel nextBlock).map fun answer => answer.map (· + 1)

def checkSegLists (h : Heap) (heapLo freeBlocks : Nat) :
    List (Fin numClasses) → Option (Except HeapFault Nat)
  | [] => some (.ok 0)
  | i :: rest =>
      let root := h.segList i
      if root = 0 then h.checkSegLists heapLo freeBlocks rest
      else if freeBlocks = 0 then some (.error .zeroFreeBlocks)
      else
        match h.checkSegList heapLo root wordMod root with
        | some (.ok count) =>
            (h.checkSegLists heapLo freeBlocks rest).map fun answer => answer.map (count + ·)
        | failed => failed

/-- `mm_checkheap` on a heap segment whose first byte is `heapLo`.  It is not called before
`mm_init`: `heap_start` would be null. -/
def mmCheckheap (h : Heap) (heapLo : Nat) : Option (Except HeapFault Unit) :=
  if h.heapStart = 0 then none
  else if h.word (h.heapStart - wsize) ≠ 0x1 then some (.error .prologueMissing)
  else
    match h.checkBlocks heapLo wordMod h.heapStart h.heapStart 0 with
    | none => none
    | some (.error fault) => some (.error fault)
    | some (.ok (block, freeBlocks)) =>
        if h.heapEnd = 0 then none
        else if h.header (h.findNext h.heapEnd) ≠ 0x1 then some (.error .heapEndNotMaintained)
        else if h.getSize block ≠ 0 ∨ h.getAlloc block = false then some (.error .epilogueFailed)
        else
          match h.countMinLists (List.finRange numMinLists) with
          | none => none
          | some minBlocks =>
              match h.checkSegLists heapLo freeBlocks (List.finRange numClasses) with
              | none => none
              | some (.error fault) => some (.error fault)
              | some (.ok segBlocks) =>
                  if minBlocks + segBlocks ≠ freeBlocks then some (.error .countMismatch)
                  else some (.ok ())

variable {h h' : Heap} {L : Layout} {e : Edge} {b : Block} {bs : List Block} {pm pa : Bool}
variable {heapLo fuel prev n a root : Nat} {l pre post : List Nat} {lists : Bin → List Nat}

/-! ## The walk over the headers -/

/-- What the checker knows of `prev` when it arrives at the blocks `bs` after the edge `e`. -/
structure Follows (h : Heap) (prev : Nat) (e : Edge) (bs : List Block) : Prop where
  alloc : h.heapStart ≠ e.addr → h.getAlloc prev = e.prevAlloc
  min : h.heapStart ≠ e.addr → e.prevMin = true → h.getSize prev = dsize
  first : h.heapStart = e.addr → e.prevAlloc = true
  separate : e.prevAlloc = false → nextAlloc bs = true

theorem footerFault_none (blockAt : h.BlockAt e b) (legal : b.Legal) : h.footerFault b.addr = none := by
  have isSize := legal.isSize
  unfold footerFault
  rw [blockAt.getAlloc isSize, blockAt.getSize isSize, blockAt.getPrevAlloc isSize]
  by_cases footed : b.alloc = false ∧ b.size ≠ minBlockSize
  · have place : h.headerToFooter b.addr = b.addr + b.size - wsize := by
      rw [headerToFooter, blockAt.getSize isSize]
      simp only [dsize, wsize]
      omega
    have footer : h.word (h.headerToFooter b.addr) = pack b.size e.prevMin e.prevAlloc b.alloc := by
      rw [place, blockAt.footer footed.1 footed.2, blockAt.header]
    simp [footer, extractSize_pack isSize, extractAlloc_pack isSize, extractPrevAlloc_pack isSize]
  · rw [if_neg footed]

theorem neighbourFault_none (blockAt : h.BlockAt e b) (legal : b.Legal)
    (follows : Follows h prev e (b :: bs)) : h.neighbourFault prev b.addr = none := by
  have isSize := legal.isSize
  unfold neighbourFault
  rw [blockAt.getAlloc isSize, blockAt.getPrevAlloc isSize, blockAt.getPrevMin isSize]
  by_cases later : h.heapStart ≠ b.addr
  · have later' : h.heapStart ≠ e.addr := blockAt.addr ▸ later
    have apart : ¬ (b.alloc = false ∧ h.getAlloc prev = false) := by
      rintro ⟨free, freePrev⟩
      have used : b.alloc = true := follows.separate ((follows.alloc later').symm.trans freePrev)
      rw [free] at used
      cases used
    have sized : ¬ (e.prevMin = true ∧ h.getSize prev ≠ dsize) := by
      rintro ⟨marked, differs⟩
      exact differs (follows.min later' marked)
    rw [if_pos later, if_neg apart, if_neg (not_not_intro (follows.alloc later').symm), if_neg sized]
  · have here : h.heapStart = b.addr := by simpa using later
    have flag : h.header b.addr &&& prevAllocMask ≠ 0 := by
      have set : h.getPrevAlloc b.addr = true :=
        (blockAt.getPrevAlloc isSize).trans (follows.first (here.trans blockAt.addr))
      simpa [getPrevAlloc, extractPrevAlloc] using set
    have bit : h.header b.addr &&& 0x2 = 0x2 := by
      have : prevAllocMask = 2 ^ 1 := rfl
      rw [this, Nat.and_two_pow] at flag
      rw [show (0x2 : Nat) = 2 ^ 1 from rfl, Nat.and_two_pow]
      cases hbit : (h.header b.addr).testBit 1 with
      | false => simp [hbit] at flag
      | true => rfl
    rw [if_neg later, if_neg fun both => both.1 bit]

theorem blockFault_none (blockAt : h.BlockAt e b) (legal : b.Legal)
    (follows : Follows h prev e (b :: bs)) (aligned : b.addr % 16 = 8) (lower : heapLo < b.addr)
    (upper : b.addr + b.size + wsize ≤ h.brk) : h.blockFault heapLo prev b.addr = none := by
  have wide := legal.le_size
  have inside : ¬ (b.addr ≤ heapLo ∨ b.addr ≥ h.heapHi) := by
    simp only [heapHi, wsize] at upper ⊢
    omega
  have onWord : b.addr % wsize = 0 := by
    simp only [wsize]
    omega
  rw [blockFault, if_neg (not_not_intro onWord), if_neg inside, footerFault_none blockAt legal,
    neighbourFault_none blockAt legal follows]
  rfl

/-- The block just visited becomes `prev`. -/
theorem Follows.step (blockAt : h.BlockAt e b) (legal : b.Legal) (start : h.heapStart ≤ e.addr)
    (chain : (b :: bs).IsChain fun b c => b.alloc = true ∨ c.alloc = true) :
    Follows h b.addr b.edge bs where
  alloc _ := blockAt.getAlloc legal.isSize
  min _ marked := by
    have isMin : b.size = minBlockSize := by simpa [Block.edge] using marked
    exact (blockAt.getSize legal.isSize).trans (isMin.trans (Nat.one_mul dsize))
  first same := by
    have := blockAt.addr_edge
    have := legal.size_pos
    omega
  separate free := by
    cases bs with
    | nil => rfl
    | cons c cs =>
        have used := (List.isChain_cons_cons.mp chain).1
        exact used.resolve_left (by simpa [Block.edge] using free)

/-- The walk finds no fault in a row of blocks, and counts the free ones. -/
theorem checkBlocks_eq (closed : h.Closed e bs pm pa) (fits : h.brk ≤ wordMod)
    (spaced : Spaced bs) (chain : bs.IsChain fun b c => b.alloc = true ∨ c.alloc = true)
    (follows : Follows h prev e bs) (start : h.heapStart ≤ e.addr) (aligned : e.addr % 16 = 8)
    (lower : heapLo < e.addr) (enough : bs.length < fuel) :
    h.checkBlocks heapLo fuel prev e.addr n =
      some (.ok (h.brk - wsize, n + bs.countP fun b => !b.alloc)) := by
  induction bs generalizing e fuel prev n with
  | nil =>
      obtain ⟨fuel, rfl⟩ : ∃ k, fuel = k + 1 := ⟨fuel - 1, by omega⟩
      have size : h.getSize e.addr = 0 := by
        rw [getSize, closed.header, extractSize_pack (closed.nextSize_isSize fits)]
        rfl
      obtain ⟨e', rfl, top, -⟩ := closed
      rw [checkBlocks, if_neg (by omega), ← top, Nat.add_sub_cancel]
      rfl
  | cons b bs ih =>
      obtain ⟨fuel, rfl⟩ : ∃ k, fuel = k + 1 := ⟨fuel - 1, by omega⟩
      have legal := spaced.legal b (List.mem_cons_self ..)
      obtain ⟨blockAt, rest⟩ := closed_cons.mp closed
      have place := blockAt.addr
      have step := blockAt.addr_edge
      have upper := rest.brk
      have sized := legal.aligned
      have next : h.findNext b.addr = b.edge.addr := by
        rw [findNext, blockAt.getSize legal.isSize]
        rfl
      have clean : h.blockFault heapLo prev b.addr = none :=
        blockFault_none blockAt legal follows (by omega) (by omega) (by simpa [Block.edge] using upper)
      have tail := ih rest (spaced.sublist (List.sublist_cons_self ..)) (List.IsChain.tail chain)
        (Follows.step blockAt legal start chain) (by omega) (by omega) (by omega) (by simpa using enough)
        (n := if b.alloc then n else n + 1)
      rw [← place, checkBlocks, if_pos (by rw [blockAt.getSize legal.isSize]; exact legal.size_pos), clean, next,
        blockAt.getAlloc legal.isSize]
      refine tail.trans ?_
      cases status : b.alloc
      · simp [status, Nat.add_assoc, Nat.add_comm 1]
      · simp [status]

/-! ## The walk over the free lists -/

theorem countMinList_eq (path : Path h.minNext a l 0) (nonnull : 0 ∉ l) (enough : l.length < fuel) :
    h.countMinList fuel a = some l.length := by
  induction l generalizing a fuel with
  | nil =>
      obtain ⟨fuel, rfl⟩ : ∃ k, fuel = k + 1 := ⟨fuel - 1, by omega⟩
      have null : a = 0 := path
      rw [countMinList, if_pos null]
      rfl
  | cons x l ih =>
      obtain ⟨fuel, rfl⟩ : ∃ k, fuel = k + 1 := ⟨fuel - 1, by omega⟩
      obtain ⟨rfl, rest⟩ := path
      have notNull : a ≠ 0 := by
        rintro rfl
        exact nonnull (List.mem_cons_self ..)
      rw [countMinList, if_neg notNull, ih rest (fun m => nonnull (List.mem_cons_of_mem _ m))
        (by simpa using enough)]
      rfl

theorem countMinLists_eq (listed : h.Listed bs lists) (classes : List (Fin numMinLists)) :
    h.countMinLists classes = some (classes.map fun j => (lists (.min j)).length).sum := by
  induction classes with
  | nil => rfl
  | cons j classes ih =>
      have count := countMinList_eq (listed.forward (.min j)) (listed.nonnull _)
        (listed.length_lt (.min j))
      rw [countMinLists, count, ih]
      rfl

/-- The links of a doubly linked list pass the test at every element. -/
theorem checkSegList_eq (list : TwoWay h.next h.prev 0 root (pre ++ post)) (nonnull : 0 ∉ pre ++ post)
    (clean : ∀ x ∈ post, heapLo < x ∧ x < h.heapHi ∧ h.getAlloc x = false) (nonempty : post ≠ [])
    (enough : post.length ≤ fuel) :
    h.checkSegList heapLo root fuel (post.headD 0) = some (.ok post.length) := by
  induction post generalizing pre fuel with
  | nil => exact absurd rfl nonempty
  | cons x post ih =>
      obtain ⟨fuel, rfl⟩ : ∃ k, fuel = k + 1 := ⟨fuel - 1, by simp at enough; omega⟩
      obtain ⟨above, below, free⟩ := clean x (List.mem_cons_self ..)
      obtain ⟨next, prev⟩ := list.links
      have inside : ¬ (x ≥ h.heapHi ∨ x ≤ heapLo) := by omega
      have linked : x ≠ root → pre.getLastD 0 ≠ 0 ∧ h.next (pre.getLastD 0) = x := by
        intro later
        rcases List.eq_nil_or_concat' pre with rfl | ⟨front, p, rfl⟩
        · exact absurd list.forward.1.symm later
        · have last : (front ++ [p]).getLastD 0 = p := by simp [List.getLastD_eq_getLast?]
          rw [last]
          refine ⟨?_, ?_⟩
          · rintro rfl
            exact nonnull (by simp)
          · have split : front ++ [p] ++ x :: post = front ++ p :: x :: post := by simp
            rw [split] at list
            exact list.links.1
      have notNull : ¬ (x ≠ root ∧ h.next x ≠ 0 ∧ h.prev x = 0) := by
        rintro ⟨later, -, null⟩
        exact (linked later).1 (prev ▸ null)
      show h.checkSegList heapLo root (fuel + 1) x = _
      cases post with
      | nil =>
          have last : h.next x = 0 := next
          simp [checkSegList, inside, free, last]
      | cons y rest =>
          have shape : pre ++ x :: y :: rest = (pre ++ [x]) ++ y :: rest := by simp
          have isNext : h.next x = y := next
          have yNotNull : y ≠ 0 := by
            rintro rfl
            exact nonnull (by simp)
          have back : h.prev y = x := by
            rw [shape] at list
            simpa [List.getLastD_eq_getLast?] using list.links.2
          have joined : ¬ (x ≠ root ∧ h.next x ≠ 0 ∧ h.prev (h.next x) ≠ h.next (h.prev x)) := by
            rintro ⟨later, -, broken⟩
            rw [isNext, back, prev, (linked later).2] at broken
            exact broken rfl
          have tail := ih (shape ▸ list) (shape ▸ nonnull)
            (fun z member => clean z (List.mem_cons_of_mem _ member)) (by simp) (by simpa using enough)
          rw [checkSegList, if_neg inside, if_neg (by simp [free]), if_neg notNull, if_neg joined,
            isNext, if_neg yNotNull]
          have answer : h.checkSegList heapLo root fuel y = some (.ok (y :: rest).length) := tail
          rw [answer]
          rfl

/-- A block of a well-formed heap that starts after `heapLo` is inside the segment. -/
theorem WellFormed.inside (wf : h.WellFormed L) (lower : heapLo < h.heapStart) (member : b ∈ L.blocks) :
    heapLo < b.addr ∧ b.addr < h.heapHi := by
  obtain ⟨e', row, top, -⟩ := wf.closed
  obtain ⟨ge, -, le, pos, -⟩ := row.bounds.2.2 b member
  have : (h.startEdge L).addr = h.heapStart := rfl
  simp only [wsize] at top
  simp only [heapHi]
  omega

theorem checkSegLists_eq (wf : h.WellFormed L) (index : h.Indexed L.blocks lists)
    (lower : heapLo < h.heapStart) (classes : List (Fin numClasses)) :
    h.checkSegLists heapLo (L.blocks.countP fun b => !b.alloc) classes =
      some (.ok (classes.map fun i => (lists (.seg i)).length).sum) := by
  have listed := wf.listed index
  induction classes with
  | nil => rfl
  | cons i classes ih =>
      have list : TwoWay h.next h.prev 0 (h.segList i) (lists (.seg i)) := index.linked (.seg i)
      rw [checkSegLists]
      by_cases empty : lists (.seg i) = []
      · rw [empty] at list
        have root : h.segList i = 0 := list.forward
        rw [if_pos root, ih, List.map_cons, empty]
        simp
      · have clean : ∀ x ∈ lists (.seg i), heapLo < x ∧ x < h.heapHi ∧ h.getAlloc x = false := by
          intro x member
          obtain ⟨b, memB, free, -, rfl⟩ := index.block_of_mem x member
          obtain ⟨e, blockAt⟩ := wf.blockAt memB
          obtain ⟨above, below⟩ := wf.inside lower memB
          exact ⟨above, below, (blockAt.getAlloc (wf.spaced.legal b memB).isSize).trans free⟩
        have isRoot : (lists (.seg i)).headD 0 = h.segList i := list.forward.headD
        obtain ⟨x, rest, shape⟩ := List.exists_cons_of_ne_nil empty
        have member : x ∈ lists (.seg i) := by simp [shape]
        have root : h.segList i ≠ 0 := by
          rw [← isRoot, shape]
          rintro rfl
          exact listed.nonnull (.seg i) member
        have positive : L.blocks.countP (fun b => !b.alloc) ≠ 0 := by
          obtain ⟨b, memB, free, -, -⟩ := index.block_of_mem x member
          exact (List.countP_pos_iff.mpr ⟨b, memB, by simp [free]⟩).ne'
        have checked := checkSegList_eq (show TwoWay h.next h.prev 0 _ ([] ++ lists (.seg i)) from list)
          (listed.nonnull _) clean empty (show (lists (.seg i)).length ≤ wordMod from
            Nat.le_of_lt (listed.length_lt _))
        rw [isRoot] at checked
        simp only [if_neg root, if_neg positive, checked, ih]
        rfl

/-! ## The count of free blocks -/

/-- All free lists, in the order in which the checker visits them. -/
def allBins : List Bin :=
  (List.finRange numMinLists).map Bin.min ++ (List.finRange numClasses).map Bin.seg

theorem allBins_once (bin : Bin) : (allBins.map fun other => if other = bin then 1 else 0).sum = 1 := by
  cases bin with
  | seg i =>
      revert i
      decide
  | min j =>
      revert j
      decide

/-- Every free block is in one bin. -/
theorem freeIn_length_sum (bs : List Block) :
    (allBins.map fun bin => (freeIn bs bin).length).sum = bs.countP fun b => !b.alloc := by
  induction bs with
  | nil => rfl
  | cons b bs ih =>
      cases status : b.alloc with
      | true =>
          have same : (fun bin => (freeIn (b :: bs) bin).length) = fun bin => (freeIn bs bin).length := by
            funext bin
            rw [freeIn_cons_alloc status]
          rw [same, ih]
          simp [status]
      | false =>
          have more : (fun bin => (freeIn (b :: bs) bin).length) =
              fun bin => (if bin = b.bin then 1 else 0) + (freeIn bs bin).length := by
            funext bin
            by_cases same : bin = b.bin
            · rw [same, freeIn_cons_bin status, if_pos rfl, List.length_cons, Nat.add_comm]
            · rw [freeIn_cons_ne same, if_neg same, Nat.zero_add]
          rw [more, List.sum_map_add, allBins_once, ih]
          simp [status, Nat.add_comm]

theorem lists_length_sum (index : h.Indexed bs lists) :
    ((List.finRange numMinLists).map fun j => (lists (.min j)).length).sum +
      ((List.finRange numClasses).map fun i => (lists (.seg i)).length).sum =
      bs.countP fun b => !b.alloc := by
  rw [← freeIn_length_sum bs, allBins, List.map_append, List.sum_append, List.map_map, List.map_map]
  congr 2
  · exact List.map_congr_left fun j _ => (index.holds (.min j)).length_eq
  · exact List.map_congr_left fun i _ => (index.holds (.seg i)).length_eq

/-! ## The checker on an intact heap -/

/-- A sound heap that fills its segment: the word at its first byte `lo` is the prologue and the
first block follows it. -/
structure Intact (h : Heap) (lo : Nat) (L : Layout) : Prop extends Sound h L where
  start : h.heapStart = lo + wsize
  prologue : h.word lo = 0x1

/-- The last block is free and the epilogue is not marked as following a block of minimum size. -/
def EpilogueClear (h : Heap) : Prop :=
  h.getAlloc h.heapEnd = false ∧ h.getPrevMin (h.findNext h.heapEnd) = false

instance (h : Heap) : Decidable h.EpilogueClear := inferInstanceAs (Decidable (_ ∧ _))

theorem Sound.epilogue_one (sound : h.Sound L) :
    h.header (h.findNext h.heapEnd) = 0x1 ↔ h.EpilogueClear := by
  obtain ⟨pre, b, e₀, split, heapEnd, status, legal, before, blockAt, top, epilogue⟩ := sound.lastBlock
  have next : h.findNext h.heapEnd = b.addr + b.size := by
    rw [heapEnd, findNext, blockAt.getSize legal.isSize]
  have alloc : h.getAlloc h.heapEnd = b.alloc := by
    rw [heapEnd, blockAt.getAlloc legal.isSize]
  have marked : h.getPrevMin (h.findNext h.heapEnd) = L.epiMin := by
    rw [next, getPrevMin, epilogue, extractPrevMin_pack isSize_zero]
  rw [EpilogueClear, alloc, marked, next, epilogue, pack_eq_one_iff isSize_zero]
  constructor
  · rintro ⟨-, clear, free, -⟩
    exact ⟨free, clear⟩
  · rintro ⟨free, clear⟩
    exact ⟨rfl, clear, free, rfl⟩

/-- Every test but one passes on an intact heap. -/
theorem mmCheckheap_eq {lo : Nat} (intact : h.Intact lo L) :
    h.mmCheckheap lo = some (if h.EpilogueClear then .ok () else .error .heapEndNotMaintained) := by
  have sound := intact.toSound
  have wf := sound.toWellFormed
  obtain ⟨lists, index⟩ := wf.indexed
  have lower : lo < h.heapStart := by
    rw [intact.start]
    exact Nat.lt_add_of_pos_right (by decide)
  have started : h.heapStart ≠ 0 := by omega
  have prologue : h.word (h.heapStart - wsize) = 0x1 := by
    rw [intact.start, Nat.add_sub_cancel]
    exact intact.prologue
  have short : L.blocks.length < wordMod := by
    obtain ⟨e', row, top, -⟩ := wf.closed
    have := row.length_le
    have := wf.brk_le
    simp only [wsize] at top
    omega
  have begins : Follows h h.heapStart (h.startEdge L) L.blocks :=
    ⟨fun ne => absurd rfl ne, fun ne => absurd rfl ne, fun _ => rfl, fun impossible => by cases impossible⟩
  have walked : h.checkBlocks lo wordMod h.heapStart (h.startEdge L).addr 0 = _ :=
    checkBlocks_eq wf.closed wf.brk_le wf.spaced wf.coalesced begins (Nat.le_refl _) sound.start_aligned
      lower short
  obtain ⟨pre, b, e₀, split, heapEnd, status, legal, before, blockAt, top, epilogue⟩ := sound.lastBlock
  have ended : h.heapEnd ≠ 0 := heapEnd ▸ legal.pos.ne'
  have edge : h.brk - wsize = b.addr + b.size := by omega
  have last : ¬ (h.getSize (h.brk - wsize) ≠ 0 ∨ h.getAlloc (h.brk - wsize) = false) := by
    rw [edge, getSize, getAlloc, epilogue, extractSize_pack isSize_zero, extractAlloc_pack isSize_zero]
    simp
  have walk : (h.startEdge L).addr = h.heapStart := rfl
  rw [walk, Nat.zero_add] at walked
  rw [mmCheckheap, if_neg started, if_neg (not_not_intro prologue), walked]
  dsimp only
  rw [if_neg ended, if_neg last, countMinLists_eq (wf.listed index), checkSegLists_eq wf index lower]
  dsimp only
  rw [if_neg (not_not_intro (lists_length_sum index))]
  by_cases clear : h.EpilogueClear
  · rw [if_pos clear, if_neg (not_not_intro (sound.epilogue_one.mpr clear))]
  · rw [if_neg clear, if_pos (fun one => clear (sound.epilogue_one.mp one))]

theorem mmCheckheap_iff {lo : Nat} (intact : h.Intact lo L) :
    h.mmCheckheap lo = some (.ok ()) ↔ h.EpilogueClear := by
  rw [mmCheckheap_eq intact]
  by_cases clear : h.EpilogueClear
  · simp [clear]
  · simp [clear]

end Heap

/-! ## Intact heaps over whole runs -/

namespace Session

variable {s s' : Session} {lo : Nat}

/-- A session just after a successful `mm_init` on an empty heap segment from `lo` on. -/
def InitialAt (lo : Nat) (s : Session) : Prop :=
  s.live = [] ∧ ∃ (h : Heap) (os : SbrkAnswers), h.brk = lo ∧ lo % 16 = 0 ∧ h.maxAddr ≤ wordMod ∧
    h.mmInit os = some (true, s.heap)

/-- The heap is intact and the user's pointers are live in it. -/
def IntactAt (lo : Nat) (s : Session) : Prop :=
  ∃ L : Layout, s.heap.Intact lo L ∧ ∀ p ∈ s.live, L.Live p

theorem InitialAt.intactAt (initial : s.InitialAt lo) : s.IntactAt lo := by
  obtain ⟨empty, h, os, rfl, aligned, maxAddr_le, booted⟩ := initial
  obtain ⟨ok, h', step, sound⟩ := Heap.mmInit_spec os aligned maxAddr_le
  rw [booted] at step
  obtain ⟨rfl, rfl⟩ : true = ok ∧ s.heap = h' := by simpa using step
  obtain ⟨m, -, sound, start, prologue⟩ := sound rfl
  exact ⟨_, ⟨sound, start, prologue⟩, by simp [empty]⟩

/-- The start of the heap and the bytes before it stay. -/
structure Fronted (h h' : Heap) : Prop where
  heapStart : h'.heapStart = h.heapStart
  front : h.KeepsFront h'

theorem Fronted.refl (h : Heap) : Fronted h h := ⟨rfl, fun _ _ => rfl⟩

section Calls

variable {h h' : Heap} {L : Layout} {os : SbrkAnswers} {p size : Nat} {answer : Nat × Heap}

theorem malloc_fronted (sound : h.Sound L) (small : size + 23 < wordMod)
    (returned : h.malloc os size = some answer) : Fronted h answer.2 := by
  rcases Heap.malloc_inside sound os small with null | ⟨h', L', c, step, served⟩
  · obtain rfl : (0, h) = answer := by simpa using null.symm.trans returned
    exact Fronted.refl h
  · obtain rfl : (headerToPayload c.addr, h') = answer := by simpa using step.symm.trans returned
    exact ⟨served.heapStart, served.front⟩

theorem free_fronted (sound : h.Sound L) (live : p = 0 ∨ L.Live p) (freed : h.free p = some h') :
    Fronted h h' := by
  rcases live with rfl | ⟨b, member, used, rfl⟩
  · obtain rfl : h = h' := by simpa [Heap.free] using freed
    exact Fronted.refl h
  · obtain ⟨pre, lo, hi, post, around⟩ := exists_around sound.coalesced member
    obtain ⟨h₁, step, done⟩ := Heap.free_inside sound.toWellFormed around used
    obtain rfl : h₁ = h' := by simpa using step.symm.trans freed
    exact ⟨done.heapStart, done.front⟩

theorem realloc_fronted (sound : h.Sound L) (live : p = 0 ∨ L.Live p) (small : size + 23 < wordMod)
    (returned : h.realloc os p size = some answer) : Fronted h answer.2 := by
  by_cases zero : size = 0
  · subst zero
    simp only [Heap.realloc, if_true, Option.map_eq_some_iff] at returned
    obtain ⟨h', freed, rfl⟩ := returned
    exact free_fronted sound live freed
  · rcases live with rfl | ⟨b, member, used, rfl⟩
    · have asMalloc : h.realloc os 0 size = h.malloc os size := by simp [Heap.realloc, zero]
      exact malloc_fronted sound small (asMalloc ▸ returned)
    · rcases Heap.realloc_spec sound os member used zero small with
        null | ⟨c, h₁, L₁, pre, lo, hi, post, h', step, -, start, front⟩
      · obtain rfl : (0, h) = answer := by simpa using null.symm.trans returned
        exact Fronted.refl h
      · obtain rfl : (headerToPayload c.addr, h') = answer := by simpa using step.symm.trans returned
        exact ⟨start, front⟩

theorem calloc_fronted {elements : Nat} (sound : h.Sound L) (small : elements * size + 23 < wordMod)
    (returned : h.calloc os elements size = some answer) : Fronted h answer.2 := by
  rcases Heap.calloc_spec sound os small with null | ⟨h', L', c, step, served⟩
  · obtain rfl : (0, h) = answer := by simpa using null.symm.trans returned
    exact Fronted.refl h
  · obtain rfl : (headerToPayload c.addr, h') = answer := by simpa using step.symm.trans returned
    exact ⟨served.heapStart, served.front⟩

end Calls

/-- No call writes before the first block. -/
theorem Inv.fronted {call : Call × SbrkAnswers} (inv : s.Inv) (stepped : s.step call = some s') :
    Fronted s.heap s'.heap := by
  obtain ⟨L, sound, live⟩ := inv
  obtain ⟨call, os⟩ := call
  have allowed : s.Allowed call := by
    by_contra forbidden
    simp [Session.step, forbidden] at stepped
  rw [Session.step, if_pos allowed] at stepped
  cases call with
  | malloc size =>
      obtain ⟨answer, returned, rfl⟩ := Option.map_eq_some_iff.mp stepped
      exact malloc_fronted sound allowed returned
  | free p =>
      obtain ⟨h', freed, rfl⟩ := Option.map_eq_some_iff.mp stepped
      exact free_fronted sound (Or.inr (live p allowed)) freed
  | realloc p size =>
      obtain ⟨answer, returned, rfl⟩ := Option.map_eq_some_iff.mp stepped
      exact realloc_fronted sound (allowed.1.imp_right (live p)) allowed.2 returned
  | calloc elements size =>
      obtain ⟨answer, returned, rfl⟩ := Option.map_eq_some_iff.mp stepped
      exact calloc_fronted sound allowed returned

theorem IntactAt.step {call : Call × SbrkAnswers} (intact : s.IntactAt lo)
    (keeps : keepsEnd s.heap call.2 call.1 = true) (stepped : s.step call = some s') : s'.IntactAt lo := by
  obtain ⟨L, whole, live⟩ := intact
  have inv : s.Inv := ⟨L, whole.toSound, live⟩
  obtain ⟨L', sound', live'⟩ := inv.step keeps stepped
  obtain ⟨heapStart, front⟩ := inv.fronted stepped
  refine ⟨L', ⟨sound', heapStart.trans whole.start, ?_⟩, live'⟩
  have same : s'.heap.word lo = s.heap.word lo := Heap.word_congr fun a _ lt => front a (by
    rw [whole.start]
    exact lt)
  exact same.trans whole.prologue

/-- **`mm_checkheap` on well-formed heaps.**  It accepts an intact heap exactly where the flags of
the epilogue are clear; and the heap is intact in every state that a session reaches without a
`free` that loses `heap_end`. -/
theorem mmCheckheap_accepts (lo : Nat) :
    (∀ (h : Heap) (L : Layout), h.Intact lo L →
      (h.mmCheckheap lo = some (.ok ()) ↔ h.EpilogueClear)) ∧
    ∀ (s s' : Session) (calls : List (Call × SbrkAnswers)), s.InitialAt lo →
      Run (fun s call s' => s.step call = some s' ∧ keepsEnd s.heap call.2 call.1 = true) s calls s' →
      (∃ L, s'.heap.Intact lo L) ∧
        (s'.heap.mmCheckheap lo = some (.ok ()) ↔ s'.heap.EpilogueClear) := by
  refine ⟨fun h L intact => h.mmCheckheap_iff intact, ?_⟩
  intro s s' calls initial run
  obtain ⟨L, intact, -⟩ : s'.IntactAt lo := run.invariant (IntactAt lo) initial.intactAt
    fun s call s' intact step => intact.step step.2 step.1
  exact ⟨⟨L, intact⟩, s'.heap.mmCheckheap_iff intact⟩

theorem booted_initialAt : booted.InitialAt 4096 :=
  ⟨rfl, blank, granted, rfl, rfl, by decide, booted_answer⟩

theorem mmCheckheap_accepts_keeping : ∃ s', Run (fun s call s' => s.step call = some s' ∧
    keepsEnd s.heap call.2 call.1 = true) booted keepingCalls s' ∧ (∃ L, s'.heap.Intact 4096 L) ∧
      s'.heap.mmCheckheap 4096 = some (.ok ()) := by
  have returns : (keepingCalls.foldlM (fun s call =>
      if keepsEnd s.heap call.2 call.1 = true then s.step call else none) booted).map
        (fun s => decide s.heap.EpilogueClear) = some true := by
    decide +kernel
  obtain ⟨s', computed, clear⟩ := Option.map_eq_some_iff.mp returns
  have run : Run (fun s call s' => s.step call = some s' ∧ keepsEnd s.heap call.2 call.1 = true)
      booted keepingCalls s' := (Run.of_guarded computed).mono fun _ _ _ step => step.symm
  obtain ⟨⟨L, intact⟩, -⟩ := (mmCheckheap_accepts 4096).2 booted s' keepingCalls booted_initialAt run
  exact ⟨s', run, ⟨L, intact⟩,
    ((mmCheckheap_accepts 4096).1 s'.heap L intact).mpr (of_decide_eq_true clear)⟩

/-- The request fills the chunk, so the last block is in use and the epilogue says so. -/
theorem mmCheckheap_accepts_counterexample : ¬ ∀ (lo : Nat) (s s' : Session)
    (calls : List (Call × SbrkAnswers)) (L : Layout), s.InitialAt lo →
    Run (fun s call s' => s.step call = some s') s calls s' → s'.heap.Intact lo L →
    s'.heap.mmCheckheap lo = some (.ok ()) := by
  intro claim
  have alarm : (booted.step (.malloc 4088, granted)).map (fun s =>
      (s.heap.mmCheckheap 4096).map Except.isOk) = some (some false) := by
    decide +kernel
  obtain ⟨s', computed, refused⟩ := Option.map_eq_some_iff.mp alarm
  obtain ⟨L, intact, -⟩ := booted_initialAt.intactAt.step rfl computed
  have accepted := claim 4096 booted s' [(.malloc 4088, granted)] L booted_initialAt
    (Run.cons computed (Run.nil s')) intact
  rw [accepted] at refused
  cases refused

end Session

end SystemsLabs.Malloc
