/-
# SystemsLabs.Malloc.Extend -- `extend_heap` on a sound heap

`extend_heap` turns the old epilogue and the new bytes into a free block, joined to the
last block if that one is free, and writes a new epilogue (`Hole.grow`).  Its first test,
for a heap without blocks, reads the last word of the last block; on a sound heap that
word is never `0x1` together with the epilogue (`Sound.notEmpty`).
-/
import SystemsLabs.Malloc.FindFit
import SystemsLabs.Malloc.Hole

namespace SystemsLabs.Malloc

open SystemsLabs.Theory.ByteMemory
open SystemsLabs.Theory.PointerPath

set_option autoImplicit false

namespace Heap

variable {h h₀ h₁ h₂ : Heap} {L : Layout} {b m : Block} {pre : List Block} {e e₀ : Edge} {hi size : Nat}

/-- A free block up to the end of the heap, and the epilogue after it. -/
theorem Hole.grow (hole : Hole h₀ h pre [] [] m.addr hi) (row : h₀.Tagged e pre e₀)
    (addr : m.addr = e₀.addr) (last : m.addr + m.size = hi) (top : hi + wsize = h₀.brk)
    (legal : m.Legal) (free : m.alloc = false) :
    ∃ h₁ h₂, (h.writeBlock m.addr m.size e₀.prevMin e₀.prevAlloc false).push m.addr = h₁ ∧
      h₁.writeEpilogue (h₁.findNext m.addr) = h₂ ∧ Hole h₀ h₂ pre [m] [] m.addr hi ∧
      h₂.Closed e (pre ++ [m]) false false := by
  obtain ⟨h₁, filled, hole₁, block, -, -⟩ := hole.fill legal le_rfl last.le free addr
  have next : h₁.findNext m.addr = hi := by
    rw [findNext, block.getSize legal.isSize, last]
  obtain ⟨hole₂, header, outside⟩ := hole₁.setHeader (by omega) (pack_lt isSize_zero false false true)
  refine ⟨h₁, _, filled, rfl, ?_, ?_⟩
  · rw [next]
    exact hole₂
  · have mid : h₁.Tagged e₀ [m] m.edge := ⟨block, rfl⟩
    have mid₂ : (h₁.setWord hi (pack 0 false false true)).Tagged e₀ [m] m.edge :=
      mid.frame hole₁.spaced (by simp) fun a _ lt _ => outside a (Or.inl (lt_of_lt_of_eq lt last))
    have edge : m.edge.addr = hi := last
    rw [next]
    refine ⟨m.edge, tagged_append.mpr ⟨e₀, hole₂.row_before row addr.ge, mid₂⟩, ?_, ?_⟩
    · rw [edge, top]
      exact hole₂.brk.symm
    · rw [edge]
      exact header

/-- The last block, which `heap_end` points to. -/
theorem Sound.lastBlock (sound : h.Sound L) : ∃ pre b e₀, L.blocks = pre ++ [b] ∧
    h.heapEnd = b.addr ∧ L.epiAlloc = b.alloc ∧ b.Legal ∧ h.Tagged (h.startEdge L) pre e₀ ∧
    h.BlockAt e₀ b ∧ b.addr + b.size + wsize = h.brk ∧
    h.header (b.addr + b.size) = pack 0 L.epiMin b.alloc true := by
  obtain ⟨b, isLast, heapEnd, status, -⟩ := sound.last
  obtain ⟨pre, split⟩ := List.getLast?_eq_some_iff.mp isLast
  have legal := sound.toWellFormed.spaced.legal b (by simp [split])
  obtain ⟨e', row, top, epilogue⟩ := sound.closed
  rw [split] at row
  obtain ⟨e₀, before, blockAt, rfl⟩ := tagged_append.mp row
  exact ⟨pre, b, e₀, split, heapEnd, status, legal, before, blockAt, top, status ▸ epilogue⟩

/-- Blocks start 8 bytes after a multiple of 16. -/
theorem Sound.addr_mod (sound : h.Sound L) (member : b ∈ L.blocks) : b.addr % 16 = 8 := by
  obtain ⟨e', row, -, -⟩ := sound.closed
  have place := row.bounds.2.2 b member
  have start : (h.startEdge L).addr = h.heapStart := rfl
  have := sound.start_aligned
  omega

/-- The link of a block of minimum size is null or a block, so it is not `0x1`. -/
theorem Sound.minNext_ne_one (sound : h.Sound L) (member : b ∈ L.blocks) (free : b.alloc = false)
    (isMin : b.size = minBlockSize) : h.minNext b.addr ≠ 1 := by
  obtain ⟨lists, index⟩ := sound.indexed
  have inList : b.addr ∈ lists b.bin :=
    (index.holds b.bin).mem_iff.mpr (mem_freeIn.mpr ⟨b, member, free, rfl, rfl⟩)
  have blocks : ∀ y ∈ lists b.bin, ∃ c ∈ L.blocks, c.addr = y := by
    intro y memY
    obtain ⟨c, memC, -, -, same⟩ := index.block_of_mem y memY
    exact ⟨c, memC, same⟩
  have list := index.linked b.bin
  obtain ⟨l₁, l₂, split⟩ := List.append_of_mem inList
  rw [split] at list blocks
  have bin : b.bin = .min (minIndex b.addr) := if_pos isMin
  rw [bin] at list
  have next := (path_append_cons.mp list).2.headD
  intro one
  rw [one] at next
  cases l₂ with
  | nil => simp at next
  | cons y rest =>
      obtain ⟨c, memC, rfl⟩ := blocks y (by simp)
      have := sound.addr_mod memC
      rw [List.headD_cons] at next
      omega

/-- A heap with blocks does not pass the test for an empty one. -/
theorem Sound.notEmpty (sound : h.Sound L) :
    ¬ (h.word (h.brk - wsize - wsize) = 0x1 ∧ h.word (h.brk - wsize) = 0x1) := by
  obtain ⟨pre, b, e₀, split, -, status, legal, before, blockAt, top, epilogue⟩ := sound.lastBlock
  have wide := legal.le_size
  have place : h.brk - wsize = b.addr + b.size := by omega
  rintro ⟨footer, one⟩
  rw [place] at footer one
  have one : h.header (b.addr + b.size) = 1 := one
  rw [epilogue, pack_eq_one_iff isSize_zero] at one
  have free : b.alloc = false := one.2.2.1
  by_cases isMin : b.size = minBlockSize
  · have link : b.addr + wsize = b.addr + b.size - wsize := by
      simp only [minBlockSize, dsize, wsize] at isMin ⊢
      omega
    apply sound.minNext_ne_one (by simp [split]) free isMin
    rw [minNext, link]
    exact footer
  · rw [blockAt.footer free isMin, blockAt.header, pack_eq_one_iff legal.isSize] at footer
    exact legal.size_pos.ne' footer.1

/-! ## `mem_sbrk` -/

/-- Only the break has moved. -/
structure Grown (h h₁ : Heap) (incr : Nat) : Prop where
  mem : h₁.mem = h.mem
  brk : h₁.brk = h.brk + incr
  maxAddr : h₁.maxAddr = h.maxAddr
  heapStart : h₁.heapStart = h.heapStart
  heapEnd : h₁.heapEnd = h.heapEnd
  binHead : ∀ bin, h₁.binHead bin = h.binHead bin
  within : h.brk + incr ≤ h.maxAddr

theorem memSbrk_grown {granted : Bool} {incr p : Nat} (grown : h.memSbrk granted incr = some (p, h₁)) :
    p = h.brk ∧ Grown h h₁ incr := by
  unfold memSbrk at grown
  split at grown
  · cases grown
  · split at grown
    · cases grown
    · split at grown
      · cases grown
      · have le : h.brk + incr ≤ h.maxAddr := by omega
        cases grown
        exact ⟨rfl, rfl, rfl, rfl, rfl, rfl, fun bin => by cases bin <;> rfl, le⟩

namespace Grown

variable {incr : Nat}

theorem word (grown : Grown h h₁ incr) (p : Nat) : h₁.word p = h.word p :=
  word_congr fun a _ _ => congrFun grown.mem a

theorem header (grown : Grown h h₁ incr) (p : Nat) : h₁.header p = h.header p := grown.word p

theorem tagged {e' : Edge} (grown : Grown h h₁ incr) (wf : h.WellFormed L)
    (sub : ∀ c ∈ pre, c ∈ L.blocks) (row : h.Tagged e pre e') : h₁.Tagged e pre e' :=
  row.frame wf.spaced sub fun a _ _ _ => congrFun grown.mem a

theorem indexed {lists : Bin → List Nat} (grown : Grown h h₁ incr) (index : h.Indexed pre lists) :
    h₁.Indexed pre lists :=
  index.congr grown.binHead fun a _ => congrFun grown.mem a

theorem keepsFront (grown : Grown h h₁ incr) (front : KeepsFront h₁ h₂) : KeepsFront h h₂ := by
  intro a lt
  exact (front a (grown.heapStart.symm ▸ lt)).trans (congrFun grown.mem a)

end Grown

/-! ## The branches of `extend_heap` -/

section Branches

variable {granted : Bool} {incr block : Nat}

theorem extendHeap_refused (rounded : roundUp size dsize = incr)
    (refused : h.memSbrk granted incr = none) : h.extendHeap granted size = some (0, h) := by
  simp [extendHeap, rounded, refused]

theorem extendHeap_empty (rounded : roundUp size dsize = incr)
    (grown : h.memSbrk granted incr = some (h.brk, h₁)) (isBlock : h.brk - wsize = block)
    (empty : h₁.word (block - wsize) = 0x1 ∧ h₁.word block = 0x1)
    (pushed : (h₁.writeBlock block incr false true false).push block = h₂) :
    h.extendHeap granted size =
      some (block, { (h₂.writeEpilogue (h₂.findNext block)) with heapEnd := block }) := by
  simp only [extendHeap, rounded, grown, payloadToHeader, isBlock, if_pos empty, pushed]
  rfl

theorem extendHeap_alloc (rounded : roundUp size dsize = incr)
    (grown : h.memSbrk granted incr = some (h.brk, h₁)) (isBlock : h.brk - wsize = block)
    (notEmpty : ¬ (h₁.word (block - wsize) = 0x1 ∧ h₁.word block = 0x1))
    (alloc : h₁.getAlloc h₁.heapEnd = true)
    (pushed : (h₁.writeBlock block incr (h₁.getSize h₁.heapEnd = minBlockSize) true false).push block = h₂) :
    h.extendHeap granted size =
      some (block, { (h₂.writeEpilogue (h₂.findNext block)) with heapEnd := block }) := by
  have merged : (if h₁.getSize h₁.heapEnd = minBlockSize then h₁.writeBlock block incr true true false
      else h₁.writeBlock block incr false true false) =
      h₁.writeBlock block incr (h₁.getSize h₁.heapEnd = minBlockSize) true false := by
    by_cases small : h₁.getSize h₁.heapEnd = minBlockSize <;> simp [small]
  simp only [extendHeap, rounded, grown, payloadToHeader, isBlock, if_neg notEmpty, alloc, if_true,
    merged, pushed]
  rfl

theorem extendHeap_free (rounded : roundUp size dsize = incr)
    (grown : h.memSbrk granted incr = some (h.brk, h₁)) (isBlock : h.brk - wsize = block)
    (notEmpty : ¬ (h₁.word (block - wsize) = 0x1 ∧ h₁.word block = 0x1))
    (free : h₁.getAlloc h₁.heapEnd = false) (popped : h₁.pop h₁.heapEnd = some h₂) :
    h.extendHeap granted size =
      let h₃ := (h₂.writeBlock h₂.heapEnd (wadd incr (h₂.getSize h₂.heapEnd))
        (h₂.getPrevMin h₂.heapEnd) (h₂.getPrevAlloc h₂.heapEnd) false)
      let h₄ := h₃.push h₃.heapEnd
      some (h₄.heapEnd, h₄.writeEpilogue (h₄.findNext h₄.heapEnd)) := by
  simp [extendHeap, rounded, grown, payloadToHeader, isBlock, notEmpty, free, popped]

end Branches

/-! ## The heap after `extend_heap` -/

/-- A heap that ends in a free block, with `heap_end` set to it. -/
theorem Hole.sound {firstMin : Bool} (hole : Hole h₁ h₂ pre [m] [] m.addr hi)
    (closed : h₂.Closed ⟨h₁.heapStart, true, firstMin⟩ (pre ++ [m]) false false)
    (free : m.alloc = false)
    (chain : (pre ++ [m]).IsChain fun b c => b.alloc = true ∨ c.alloc = true)
    (start_pos : 0 < h₁.heapStart) (start_aligned : h₁.heapStart % 16 = 8)
    (brk_le : h₁.brk ≤ h₁.maxAddr) (maxAddr_le : h₁.maxAddr ≤ wordMod) :
    ({ h₂ with heapEnd := m.addr } : Heap).Sound ⟨pre ++ [m], firstMin, false, false⟩ := by
  have wf : h₂.WellFormed ⟨pre ++ [m], firstMin, false, false⟩ := by
    refine ⟨hole.heapStart.symm ▸ start_pos, ?_, hole.brk.symm ▸ brk_le.trans maxAddr_le, chain, ?_⟩
    · rw [startEdge, hole.heapStart]
      exact closed
    · obtain ⟨lists, index⟩ := hole.index
      exact ⟨lists, by simpa using index⟩
  exact ⟨wf.setHeapEnd _, hole.heapStart.symm ▸ start_aligned, hole.maxAddr.symm ▸ maxAddr_le,
    m, by simp, rfl, free.symm, by simp⟩

/-- Both ways to extend a heap end in a sound one. -/
theorem Grown.sound {incr : Nat} (grown : Grown h h₁ incr) (sound : h.Sound L)
    (hole : Hole h₁ h₂ pre [m] [] m.addr hi)
    (closed : h₂.Closed (h.startEdge L) (pre ++ [m]) false false) (free : m.alloc = false)
    (chain : (pre ++ [m]).IsChain fun b c => b.alloc = true ∨ c.alloc = true) :
    ({ h₂ with heapEnd := m.addr } : Heap).Sound ⟨pre ++ [m], L.firstMin, false, false⟩ := by
  refine hole.sound ?_ free chain (grown.heapStart.symm ▸ sound.start_pos)
    (grown.heapStart.symm ▸ sound.start_aligned) ?_ (grown.maxAddr.symm ▸ sound.maxAddr_le)
  · rw [grown.heapStart]
    exact closed
  · rw [grown.brk, grown.maxAddr]
    exact grown.within

/-- The effect of a granted `extend_heap`: the heap ends in the free block `m`. -/
structure Extended (h h' : Heap) (L L' : Layout) (m : Block) : Prop where
  sound : h'.Sound L'
  member : m ∈ L'.blocks
  free : m.alloc = false
  kept : ∀ c : Block, c.alloc = true → (c ∈ L'.blocks ↔ c ∈ L.blocks)
  payload : ∀ c ∈ L.blocks, c.alloc = true → ∀ a, c.addr + 8 ≤ a → a < c.addr + c.size →
    h'.mem a = h.mem a

/-- The last block is in use: the new block follows it. -/
theorem Sound.extend_alloc {granted : Bool} {incr : Nat} (sound : h.Sound L)
    (rounded : roundUp size dsize = incr) (aligned : incr % 16 = 0) (pos : 0 < incr)
    (asked : h.memSbrk granted incr = some (h.brk, h₁)) (alloc : L.epiAlloc = true) :
    ∃ m h' L', h.extendHeap granted size = some (m.addr, h') ∧ incr ≤ m.size ∧ Extended h h' L L' m ∧
      h'.heapStart = h.heapStart ∧ KeepsFront h h' := by
  obtain ⟨-, grown⟩ := memSbrk_grown asked
  obtain ⟨pre, b, e₀, split, heapEnd, status, legal, before, blockAt, top, epilogue⟩ := sound.lastBlock
  have wf := sound.toWellFormed
  have chain := wf.coalesced
  have within := grown.within
  have maxAddr_le := sound.maxAddr_le
  have used : b.alloc = true := status.symm.trans alloc
  obtain ⟨lists, index⟩ := wf.indexed
  obtain ⟨m, isM⟩ : ∃ m : Block, m = ⟨b.addr + b.size, incr, false⟩ := ⟨_, rfl⟩
  have place : m.addr = b.addr + b.size := isM ▸ rfl
  have mSize : m.size = incr := isM ▸ rfl
  have free : m.alloc = false := isM ▸ rfl
  have brk : h.brk = m.addr + 8 := by rw [place, ← top]; rfl
  have mLegal : m.Legal := by
    have := legal.pos
    exact ⟨by omega, by omega, by omega, by omega⟩
  have row : h.Tagged (h.startEdge L) L.blocks b.edge := by
    rw [split]
    exact tagged_append.mpr ⟨e₀, before, blockAt, rfl⟩
  have region : Region L.blocks [] [] m.addr (m.addr + m.size) :=
    ⟨by simpa using wf.spaced, fun c member => (row.bounds.2.2 c member).2.2.1.trans place.ge,
      by simp, by simp⟩
  have hole := Hole.start (h := h₁) region (by simpa using grown.indexed index)
  obtain ⟨h₂, h₃, pushed, sealed, hole₃, closed⟩ := hole.grow (grown.tagged wf (fun _ m => m) row)
    place rfl (by rw [grown.brk, brk, mSize]; simp only [wsize]; omega) mLegal free
  have last : h₁.header h₁.heapEnd = h.header b.addr := by rw [grown.heapEnd, heapEnd, grown.header]
  have notEmpty := sound.notEmpty
  rw [← grown.word, ← grown.word, show h.brk - wsize = m.addr by rw [brk]; rfl] at notEmpty
  have lastSize : h₁.getSize h₁.heapEnd = b.size :=
    (congrArg extractSize last).trans (blockAt.getSize legal.isSize)
  have pushed' : (h₁.writeBlock m.addr incr (h₁.getSize h₁.heapEnd = minBlockSize) true false).push
      m.addr = h₂ := by
    rw [lastSize, ← mSize, ← used]
    exact pushed
  have step := extendHeap_alloc rounded asked (by rw [brk]; rfl) notEmpty
    ((congrArg extractAlloc last).trans ((blockAt.getAlloc legal.isSize).trans used)) pushed'
  rw [sealed] at step
  have chain' : (L.blocks ++ [m]).IsChain fun b c => b.alloc = true ∨ c.alloc = true := by
    refine List.isChain_append.mpr ⟨chain, List.isChain_singleton _, fun c isLast d _ => Or.inl ?_⟩
    obtain rfl : b = c := by simpa [split] using isLast
    exact used
  have row₁ : h₁.Tagged (h.startEdge L) L.blocks b.edge := grown.tagged wf (fun _ m => m) row
  refine ⟨m, _, ⟨L.blocks ++ [m], L.firstMin, false, false⟩, step, mSize.ge,
    ⟨grown.sound sound hole₃ closed free chain', by simp, free, fun c used => ?_,
      fun c member used a ge lt => ?_⟩, hole₃.heapStart.trans grown.heapStart,
    grown.keepsFront (hole₃.keepsFront row₁ grown.heapStart.symm place.symm (Nat.le_add_right ..))⟩
  · have ne : c ≠ m := by
      rintro rfl
      rw [free] at used
      cases used
    simp [ne]
  · exact (hole₃.payload (by simpa using member) used ge lt).trans (congrFun grown.mem a)

/-- A free last block is taken out of the lists before it is lengthened. -/
theorem Sound.popLast {incr top : Nat} (sound : h.Sound L) (grown : Grown h h₁ incr)
    (split : L.blocks = pre ++ [b]) (blockAt : h.BlockAt e₀ b) (free : b.alloc = false)
    (le : b.addr + b.size ≤ top) :
    ∃ h₂, h₁.pop b.addr = some h₂ ∧ Hole h₁ h₂ pre [] [] b.addr top ∧
      h₂.header b.addr = h.header b.addr := by
  obtain ⟨lists, index⟩ := sound.indexed
  have legal := sound.toWellFormed.spaced.legal b (by simp [split])
  have spaced := sound.toWellFormed.spaced
  rw [split] at index spaced
  have onlyB : ∀ c ∈ [b], c = b := fun c member => List.mem_singleton.mp member
  have region : Region pre [b] [] b.addr top := by
    refine ⟨by simpa using spaced, spaced.before, fun c member => ?_, by simp⟩
    obtain rfl := onlyB c member
    exact ⟨le_rfl, le⟩
  have hole := Hole.start region (by simpa using grown.indexed index)
  have size : h₁.getSize b.addr = b.size :=
    (congrArg extractSize (grown.header b.addr)).trans (blockAt.getSize legal.isSize)
  obtain ⟨h₂, popped, hole₂, linkless⟩ := hole.pop free size
  refine ⟨h₂, popped, hole₂, ?_⟩
  have kept : h₂.header b.addr = h₁.header b.addr := by
    apply hole.header_kept linkless le_rfl (by omega)
    intro c member
    obtain rfl := onlyB c member
    exact Or.inl le_rfl
  exact kept.trans (grown.header b.addr)

/-- The last block is free: the new bytes are joined to it. -/
theorem Sound.extend_free {granted : Bool} {incr : Nat} (sound : h.Sound L)
    (rounded : roundUp size dsize = incr) (aligned : incr % 16 = 0)
    (asked : h.memSbrk granted incr = some (h.brk, h₁)) (free : L.epiAlloc = false) :
    ∃ m h' L', h.extendHeap granted size = some (m.addr, h') ∧ incr ≤ m.size ∧ Extended h h' L L' m ∧
      h'.heapStart = h.heapStart ∧ KeepsFront h h' := by
  obtain ⟨-, grown⟩ := memSbrk_grown asked
  obtain ⟨pre, b, e₀, split, heapEnd, status, legal, before, blockAt, top, epilogue⟩ := sound.lastBlock
  have wf := sound.toWellFormed
  have chain := wf.coalesced
  have within := grown.within
  have maxAddr_le := sound.maxAddr_le
  have unused : b.alloc = false := status.symm.trans free
  obtain ⟨m, isM⟩ : ∃ m : Block, m = ⟨b.addr, incr + b.size, false⟩ := ⟨_, rfl⟩
  have place : m.addr = b.addr := isM ▸ rfl
  have mSize : m.size = incr + b.size := isM ▸ rfl
  have mFree : m.alloc = false := isM ▸ rfl
  have wide := legal.le_size
  have bAligned := legal.aligned
  have brk : h.brk = m.addr + b.size + 8 := by rw [place, ← top]; rfl
  have mLegal : m.Legal := by
    have := legal.pos
    exact ⟨by omega, by omega, by omega, by omega⟩
  obtain ⟨h₂, popped, hole₂, kept⟩ :=
    sound.popLast grown split blockAt unused (show b.addr + b.size ≤ m.addr + m.size by omega)
  rw [← place] at hole₂
  have end₂ : h₂.heapEnd = b.addr := hole₂.heapEnd.trans (grown.heapEnd.trans heapEnd)
  obtain ⟨h₃, h₄, pushed, sealed, hole₄, closed⟩ := hole₂.grow
    (grown.tagged wf (fun c member => by simp [split, member]) before) (place.trans blockAt.addr) rfl
    (by rw [grown.brk, brk, mSize]; simp only [wsize]; omega) mLegal mFree
  have last : h₁.header h₁.heapEnd = h.header b.addr := by rw [grown.heapEnd, heapEnd, grown.header]
  have notEmpty := sound.notEmpty
  rw [← grown.word, ← grown.word] at notEmpty
  have step := extendHeap_free rounded asked rfl notEmpty
    ((congrArg extractAlloc last).trans ((blockAt.getAlloc legal.isSize).trans unused))
    (by rw [grown.heapEnd, heapEnd]; exact popped)
  have keptSize : h₂.getSize b.addr = b.size :=
    (congrArg extractSize kept).trans (blockAt.getSize legal.isSize)
  have joined : wadd incr (h₂.getSize b.addr) = m.size := by
    have := mLegal.fits
    rw [keptSize, wadd_of_lt (by omega), mSize]
  have prevMin : h₂.getPrevMin b.addr = e₀.prevMin :=
    (congrArg extractPrevMin kept).trans (blockAt.getPrevMin legal.isSize)
  have prevAlloc : h₂.getPrevAlloc b.addr = e₀.prevAlloc :=
    (congrArg extractPrevAlloc kept).trans (blockAt.getPrevAlloc legal.isSize)
  have written := (writeBlock_globals h₂ m.addr m.size e₀.prevMin e₀.prevAlloc false).heapEnd
  have end₃ : h₃.heapEnd = m.addr := by
    have same : h₄.heapEnd = h₃.heapEnd := sealed ▸ rfl
    rw [← same, hole₄.heapEnd, grown.heapEnd, heapEnd, place]
  simp only [end₂, joined, prevMin, prevAlloc] at step
  rw [← place] at step end₂
  simp only [written, end₂, pushed, end₃, sealed] at step
  have end₄ : ({ h₄ with heapEnd := m.addr } : Heap) = h₄ := by
    have same : h₄.heapEnd = m.addr := (sealed ▸ rfl : h₄.heapEnd = h₃.heapEnd).trans end₃
    rw [← same]
  have chain' : (pre ++ [m]).IsChain fun b c => b.alloc = true ∨ c.alloc = true := by
    rw [split] at chain
    obtain ⟨left, -, joint⟩ := List.isChain_append.mp chain
    refine List.isChain_append.mpr ⟨left, List.isChain_singleton _, fun c isLast d _ => Or.inl ?_⟩
    have := joint c isLast b rfl
    simpa [unused] using this
  have row₁ : h₁.Tagged (h.startEdge L) pre e₀ :=
    grown.tagged wf (fun c member => by simp [split, member]) before
  refine ⟨m, h₄, ⟨pre ++ [m], L.firstMin, false, false⟩, step, by omega,
    ⟨end₄ ▸ grown.sound sound hole₄ closed mFree chain', by simp, mFree, fun c used => ?_,
      fun c member used a ge lt => ?_⟩, hole₄.heapStart.trans grown.heapStart,
    grown.keepsFront (hole₄.keepsFront row₁ grown.heapStart.symm (blockAt.addr.symm.trans place.symm)
      (Nat.le_add_right ..))⟩
  · have ne : c ≠ m ∧ c ≠ b := by
      constructor
      all_goals
        rintro rfl
        simp_all
    simp [split, ne]
  · have inPre : c ∈ pre := by
      rw [split, List.mem_append, List.mem_singleton] at member
      rcases member with inPre | rfl
      · exact inPre
      · rw [unused] at used
        cases used
    exact (hole₄.payload (by simpa using inPre) used ge lt).trans (congrFun grown.mem a)

/-- **`extend_heap`** by a whole number of double words. -/
theorem extendHeap_spec (sound : h.Sound L) (granted : Bool) (aligned : size % 16 = 0) (pos : 0 < size)
    (fits : size + 15 < wordMod) :
    (h.memSbrk granted size = none ∧ h.extendHeap granted size = some (0, h)) ∨
      (h.memSbrk granted size ≠ none ∧ ∃ m h' L', h.extendHeap granted size = some (m.addr, h') ∧
        size ≤ m.size ∧ Extended h h' L L' m ∧ h'.heapStart = h.heapStart ∧ KeepsFront h h') := by
  have rounded : roundUp size dsize = size := by
    rw [roundUp_dsize fits]
    omega
  cases asked : h.memSbrk granted size with
  | none => exact Or.inl ⟨rfl, extendHeap_refused rounded asked⟩
  | some answer =>
      obtain ⟨p, h₁⟩ := answer
      obtain ⟨rfl, -⟩ := memSbrk_grown asked
      refine Or.inr ⟨by simp, ?_⟩
      cases status : L.epiAlloc with
      | true => exact sound.extend_alloc rounded aligned pos asked status
      | false => exact sound.extend_free rounded aligned asked status

/-! ## `mm_init` -/

theorem indexed_nil (empty : ∀ bin, h.binHead bin = 0) : h.Indexed [] fun _ => [] where
  linked bin := by
    cases bin with
    | seg i =>
        have root : h.segList i = 0 := empty (.seg i)
        exact ⟨root, rfl⟩
    | min j => exact empty (.min j)
  holds _ := List.Perm.refl _

/-- The heap of `mm_init` with its first two words and no blocks. -/
def framed (h : Heap) (start : Nat) : Heap :=
  let h : Heap := { h with segList := fun _ => 0, minList := fun _ => 0 }
  let h := h.setWord start (pack 0 false false true)
  let h := h.setWord (start + wsize) (pack 0 false false true)
  { h with heapStart := start + wsize, heapEnd := start + wsize }

theorem mmInit_framed {os : SbrkAnswers} {start : Nat}
    (first : h.memSbrk os.prologue (2 * wsize) = some (start, h₁)) :
    h.mmInit os = ((h₁.framed start).extendHeap os.chunk chunksize).map
      fun answer => (decide (answer.1 ≠ 0), answer.2) := by
  cases result : (h₁.framed start).extendHeap os.chunk chunksize <;>
    · simp only [framed] at result
      simp only [mmInit, first, result, Option.map_none, Option.map_some]

theorem framed_words (h : Heap) (start : Nat) :
    (h.framed start).word start = 1 ∧ (h.framed start).word (start + wsize) = 1 := by
  constructor
  · exact (word_setWord_ne (Or.inl le_rfl)).trans (word_setWord (by decide))
  · exact word_setWord (by decide)

/-- The first chunk of an empty heap. -/
theorem framed_extend {start : Nat} {granted : Bool} (heapBrk : h₀.brk = start + 16)
    (aligned : start % 16 = 0) (maxAddr_le : h₀.maxAddr ≤ wordMod)
    (asked : (h₀.framed start).memSbrk granted chunksize = some ((h₀.framed start).brk, h₁)) :
    ∃ m h', (h₀.framed start).extendHeap granted chunksize = some (m.addr, h') ∧ m.addr ≠ 0 ∧
      m.alloc = false ∧ h'.Sound ⟨[m], false, false, false⟩ ∧ h'.heapStart = start + wsize ∧
      h'.word start = 0x1 := by
  obtain ⟨-, grown⟩ := memSbrk_grown asked
  obtain ⟨prologue, epilogue⟩ := h₀.framed_words start
  have within := grown.within
  have brk : (h₀.framed start).brk = start + 16 := heapBrk
  have max : (h₀.framed start).maxAddr = h₀.maxAddr := rfl
  have index : (h₀.framed start).Indexed [] fun _ => [] :=
    indexed_nil fun bin => by cases bin <;> rfl
  have chunk : chunksize = 4096 := rfl
  obtain ⟨m, isM⟩ : ∃ m : Block, m = ⟨start + 8, chunksize, false⟩ := ⟨_, rfl⟩
  have place : m.addr = start + 8 := isM ▸ rfl
  have mSize : m.size = chunksize := isM ▸ rfl
  have free : m.alloc = false := isM ▸ rfl
  have legal : m.Legal := ⟨by omega, by omega, by omega, by omega⟩
  have region : Region [] [] [] m.addr (m.addr + m.size) :=
    ⟨⟨by simp, by simp⟩, by simp, by simp, by simp⟩
  have hole := Hole.start (h := h₁) region (by simpa using grown.indexed index)
  have row : h₁.Tagged ⟨start + 8, true, false⟩ [] ⟨start + 8, true, false⟩ := rfl
  obtain ⟨h₂, h₃, pushed, sealed, hole₃, closed⟩ := hole.grow row place rfl
    (by rw [grown.brk, brk, place, mSize]; simp only [wsize]; omega) legal free
  have pushed' : (h₁.writeBlock m.addr chunksize false true false).push m.addr = h₂ := by
    rw [← mSize]
    exact pushed
  have words : h₁.word (m.addr - wsize) = 0x1 ∧ h₁.word m.addr = 0x1 := by
    rw [grown.word, grown.word, place]
    exact ⟨prologue, epilogue⟩
  have rounded : roundUp chunksize dsize = chunksize := by decide
  have step := extendHeap_empty rounded asked (by rw [brk, place]; rfl) words pushed'
  rw [sealed] at step
  have front : KeepsFront (h₀.framed start) h₃ := grown.keepsFront
    (hole₃.keepsFront row grown.heapStart.symm place.symm (Nat.le_add_right ..))
  refine ⟨m, _, step, by omega, free, hole₃.sound ?_ free (List.isChain_singleton _) ?_ ?_ ?_ ?_,
    hole₃.heapStart.trans grown.heapStart,
    (word_congr fun a _ lt => front a lt).trans prologue⟩
  · rw [grown.heapStart]
    exact closed
  · rw [grown.heapStart]
    exact Nat.succ_pos _
  · rw [grown.heapStart]
    show (start + 8) % 16 = 8
    omega
  · rw [grown.brk, grown.maxAddr]
    exact within
  · rw [grown.maxAddr]
    exact maxAddr_le

/-- **`mm_init`** on a heap segment that starts at a double word leaves, if it succeeds, a
sound heap of one free block after the prologue. -/
theorem mmInit_spec (os : SbrkAnswers) (aligned : h.brk % 16 = 0) (maxAddr_le : h.maxAddr ≤ wordMod) :
    ∃ ok h', h.mmInit os = some (ok, h') ∧
      (ok = true → ∃ m : Block, m.alloc = false ∧ h'.Sound ⟨[m], false, false, false⟩ ∧
        h'.heapStart = h.brk + wsize ∧ h'.word h.brk = 0x1) := by
  cases first : h.memSbrk os.prologue (2 * wsize) with
  | none =>
      have failed : ∃ h', h.mmInit os = some (false, h') := by
        unfold mmInit
        rw [first]
        exact ⟨_, rfl⟩
      obtain ⟨h', step⟩ := failed
      exact ⟨false, h', step, fun impossible => by cases impossible⟩
  | some answer =>
      obtain ⟨start, h₁⟩ := answer
      obtain ⟨rfl, grown⟩ := memSbrk_grown first
      rw [mmInit_framed first]
      cases asked : (h₁.framed h.brk).memSbrk os.chunk chunksize with
      | none =>
          rw [extendHeap_refused (by decide) asked]
          exact ⟨false, _, rfl, fun impossible => by cases impossible⟩
      | some answer =>
          obtain ⟨p, h₂⟩ := answer
          obtain ⟨rfl, -⟩ := memSbrk_grown asked
          obtain ⟨m, h', step, nonnull, free, booted⟩ := framed_extend grown.brk aligned
            (grown.maxAddr.symm ▸ maxAddr_le) asked
          rw [step]
          exact ⟨true, h', by simp [nonnull], fun _ => ⟨m, free, booted⟩⟩

/-- `mem_sbrk` refuses one of the two calls of `mm_init`. -/
def InitRefused (h : Heap) (os : SbrkAnswers) : Prop :=
  h.memSbrk os.prologue (2 * wsize) = none ∨
    ∃ start h₁, h.memSbrk os.prologue (2 * wsize) = some (start, h₁) ∧ h₁.memSbrk os.chunk chunksize = none

theorem memSbrk_none_congr {granted : Bool} {incr : Nat} (brk : h₁.brk = h.brk) (maxAddr : h₁.maxAddr = h.maxAddr)
    (refused : h₁.memSbrk granted incr = none) : h.memSbrk granted incr = none := by
  unfold memSbrk at refused ⊢
  rw [brk, maxAddr] at refused
  split_ifs at refused ⊢ <;> rfl

/-- `mm_init` fails only where `mem_sbrk` does. -/
theorem mmInit_refused (os : SbrkAnswers) (aligned : h.brk % 16 = 0) (maxAddr_le : h.maxAddr ≤ wordMod) {h' : Heap}
    (failed : h.mmInit os = some (false, h')) : h.InitRefused os := by
  cases first : h.memSbrk os.prologue (2 * wsize) with
  | none => exact Or.inl first
  | some answer =>
      obtain ⟨start, h₁⟩ := answer
      obtain ⟨rfl, grown⟩ := memSbrk_grown first
      refine Or.inr ⟨_, h₁, first, ?_⟩
      rw [mmInit_framed first] at failed
      cases asked : (h₁.framed h.brk).memSbrk os.chunk chunksize with
      | none => exact memSbrk_none_congr (show (h₁.framed h.brk).brk = h₁.brk from rfl) rfl asked
      | some answer =>
          obtain ⟨p, h₂⟩ := answer
          obtain ⟨rfl, -⟩ := memSbrk_grown asked
          obtain ⟨m, h₃, step, nonnull, -⟩ := framed_extend grown.brk aligned (grown.maxAddr.symm ▸ maxAddr_le) asked
          rw [step] at failed
          have booted := (Prod.mk.inj (Option.some.inj failed)).1
          simp [nonnull] at booted

end Heap

end SystemsLabs.Malloc
