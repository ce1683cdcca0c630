/-
# SystemsLabs.Malloc.Split -- `split_block` on a sound heap

`split_block` turns a free block into an allocated one of the adjusted size and puts
what is left over, if it is enough for a block, back as a free block (`carve`).  The two
arms are `Chosen.takeWhole` and `Chosen.takePart`; `splitBlock_spec` joins them.
-/
import SystemsLabs.Malloc.FindFit
import SystemsLabs.Malloc.Hole

namespace SystemsLabs.Malloc

open SystemsLabs.Theory.ByteMemory

set_option autoImplicit false

/-- What `split_block` makes of a free block. -/
def carve (b : Block) (asize : Nat) : List Block :=
  if b.size = asize then [{ b with alloc := true }]
  else [⟨b.addr, asize, true⟩, ⟨b.addr + asize, b.size - asize, false⟩]

/-- The heap after `split_block` of the block between `pre` and `post`. -/
def Layout.carved (L : Layout) (pre : List Block) (b : Block) (post : List Block) (asize : Nat) :
    Layout where
  blocks := pre ++ carve b asize ++ post
  firstMin := L.firstMin
  epiMin := if post = [] then b.size = asize && b.size = minBlockSize else L.epiMin
  epiAlloc := if post = [] then b.size = asize else L.epiAlloc

/-- Address of the last block that `split_block` leaves. -/
def carveEnd (b : Block) (asize : Nat) : Nat := if b.size = asize then b.addr else b.addr + asize

theorem carve_last (b : Block) (asize : Nat) : ∃ front c, carve b asize = front ++ [c] ∧
    c.addr = carveEnd b asize ∧ c.alloc = decide (b.size = asize) ∧ (b.size = asize → c.size = b.size) := by
  by_cases whole : b.size = asize
  · exact ⟨[], { b with alloc := true }, by simp [carve, whole], by simp [carveEnd, whole],
      by simp [whole], fun _ => rfl⟩
  · exact ⟨[⟨b.addr, asize, true⟩], ⟨b.addr + asize, b.size - asize, false⟩, by simp [carve, whole],
      by simp [carveEnd, whole], by simp [whole], fun same => absurd same whole⟩

theorem carve_isChain (b : Block) (asize : Nat) :
    (carve b asize).IsChain fun b c => b.alloc = true ∨ c.alloc = true := by
  unfold carve
  split
  · exact List.isChain_singleton _
  · exact List.isChain_cons_cons.mpr ⟨Or.inl rfl, List.isChain_singleton _⟩

theorem carve_head (b : Block) (asize : Nat) : ∃ c rest, carve b asize = c :: rest ∧ c.alloc = true ∧
    c.addr = b.addr ∧ c.size = asize := by
  by_cases whole : b.size = asize
  · exact ⟨{ b with alloc := true }, [], by simp [carve, whole], rfl, rfl, whole⟩
  · exact ⟨⟨b.addr, asize, true⟩, _, by rw [carve, if_neg whole], rfl, rfl, rfl⟩

namespace Heap

variable {h h' h₁ : Heap} {L : Layout} {b : Block} {pre post : List Block} {e₀ : Edge} {asize : Nat}

/-- A free block with its surroundings, about to be allocated. -/
structure Chosen (h : Heap) (L : Layout) (pre : List Block) (b : Block) (post : List Block)
    (e₀ : Edge) : Prop where
  sound : h.Sound L
  split : L.blocks = pre ++ b :: post
  free : b.alloc = false
  legal : b.Legal
  before : h.Tagged (h.startEdge L) pre e₀
  blockAt : h.BlockAt e₀ b
  after : h.Closed b.edge post L.epiMin L.epiAlloc
  region : Region pre [b] post b.addr (b.addr + b.size)
  postAlloc : nextAlloc post = true
  preAlloc : ∀ x, pre.getLast? = some x → x.alloc = true

theorem Sound.choose (sound : h.Sound L) (member : b ∈ L.blocks) (free : b.alloc = false) :
    ∃ pre post e₀, Chosen h L pre b post e₀ := by
  obtain ⟨pre, post, split⟩ := List.append_of_mem member
  have closed := sound.closed
  have chain := sound.coalesced
  have spaced := sound.toWellFormed.spaced
  have legal := spaced.legal b member
  rw [split] at closed chain spaced
  obtain ⟨e₀, before, rest⟩ := closed_append.mp closed
  obtain ⟨blockAt, after⟩ := closed_cons.mp rest
  obtain ⟨-, right, joint⟩ := List.isChain_append.mp chain
  have shape : pre ++ [b] ++ post = pre ++ b :: post := by simp
  refine ⟨pre, post, e₀, sound, split, free, legal, before, blockAt, after,
    ⟨shape ▸ spaced, spaced.before, ?_, spaced.after⟩, ?_, fun x last => ?_⟩
  · intro c inside
    obtain rfl := List.mem_singleton.mp inside
    exact ⟨le_rfl, le_rfl⟩
  · cases post with
    | nil => rfl
    | cons c rest =>
        have := (List.isChain_cons_cons.mp right).1
        show c.alloc = true
        simpa [free] using this
  · have := joint x last b rfl
    simpa [free] using this

namespace Chosen

variable (chosen : Chosen h L pre b post e₀)

include chosen

/-- The header after the block. -/
theorem next_header : h.header (b.addr + b.size) = pack (nextSize post)
    (if post = [] then L.epiMin else b.size = minBlockSize)
    (if post = [] then L.epiAlloc else false) true := by
  have header := chosen.after.header
  rw [chosen.postAlloc] at header
  rw [← chosen.free]
  exact header

theorem next_isSize : IsSize (nextSize post) := chosen.after.nextSize_isSize chosen.sound.brk_le

theorem nextSize_pos (nonempty : post ≠ []) : nextSize post ≠ 0 := by
  obtain ⟨c, rest, rfl⟩ := List.exists_cons_of_ne_nil nonempty
  exact (closed_cons.mp chosen.after).1.size_pos.ne'

/-- In the last block, the epilogue's flags describe it. -/
theorem epilogue (last : post = []) :
    h.heapEnd = b.addr ∧ L.epiAlloc = false ∧ (L.epiMin = true → b.size = minBlockSize) := by
  obtain ⟨c, isLast, heapEnd, status, isMin⟩ := chosen.sound.last
  have same : c = b := by simpa [chosen.split, last] using isLast.symm
  subst same
  exact ⟨heapEnd, status.trans chosen.free, isMin⟩

/-- The test `header == 0x1` finds the last block, unless the epilogue still carries the
mark of a minimum-size block. -/
theorem next_header_one :
    h.header (b.addr + b.size) = 1 ↔ post = [] ∧ L.epiMin = false := by
  rw [chosen.next_header, pack_eq_one_iff chosen.next_isSize]
  by_cases last : post = []
  · simp [last, nextSize, (chosen.epilogue last).2.1]
  · simp [last, chosen.nextSize_pos last]

/-- The first step of both arms: the block leaves the lists. -/
theorem pop : ∃ h₁, h.pop b.addr = some h₁ ∧
    Hole h h₁ pre [] post b.addr (b.addr + b.size) ∧ h₁.header b.addr = h.header b.addr ∧
    h₁.header (b.addr + b.size) = h.header (b.addr + b.size) := by
  have split := chosen.split
  obtain ⟨lists, index⟩ := chosen.sound.indexed
  have shape : pre ++ [b] ++ post = L.blocks := by simp [split]
  have hole := Hole.start chosen.region (shape ▸ index)
  obtain ⟨h₁, popped, hole₁, linkless⟩ := hole.pop chosen.free (chosen.blockAt.getSize chosen.legal.isSize)
  refine ⟨h₁, popped, hole₁, ?_, ?_⟩
  · exact hole.header_kept linkless le_rfl (by omega) fun c inside => by
      obtain rfl := List.mem_singleton.mp inside
      exact Or.inl le_rfl
  · exact hole.header_kept linkless (by omega) le_rfl fun c inside => by
      obtain rfl := List.mem_singleton.mp inside
      exact Or.inr le_rfl

end Chosen

/-- The effect of `split_block`. -/
structure Carved (h h' : Heap) (L L' : Layout) (kept : List Block) : Prop where
  sound : h'.Sound L'
  payload : ∀ c ∈ kept, c.alloc = true → ∀ a, c.addr + 8 ≤ a → a < c.addr + c.size → h'.mem a = h.mem a
  brk : h'.brk = h.brk
  heapStart : h'.heapStart = h.heapStart

/-- No two free neighbours appear. -/
theorem Chosen.coalesced (chosen : Chosen h L pre b post e₀) (asize : Nat) :
    (pre ++ carve b asize ++ post).IsChain fun b c => b.alloc = true ∨ c.alloc = true := by
  have chain := chosen.sound.coalesced
  rw [chosen.split] at chain
  obtain ⟨left, right, -⟩ := List.isChain_append.mp chain
  obtain ⟨c, rest, shape, alloc, -⟩ := carve_head b asize
  refine List.isChain_append.mpr ⟨List.isChain_append.mpr ⟨left, carve_isChain b asize, ?_⟩,
    List.IsChain.tail right, fun _ _ y first => Or.inr ?_⟩
  · intro x last y first
    exact Or.inl (chosen.preAlloc x last)
  · have postAlloc := chosen.postAlloc
    cases post with
    | nil => simp at first
    | cons z post =>
        obtain rfl : z = y := by simpa using first
        exact postAlloc

/-- The end of both arms. -/
theorem Chosen.carved {inside : List Block} {e₁ : Edge} (chosen : Chosen h L pre b post e₀)
    (hole : Hole h h' pre inside post b.addr (b.addr + b.size))
    (index : ∃ lists, h'.Indexed (pre ++ carve b asize ++ post) lists)
    (row : h'.Tagged e₀ (carve b asize) e₁) (edge : e₁.addr = b.addr + b.size)
    (header : h'.header (b.addr + b.size) = pack (nextSize post)
      (if post = [] then (L.carved pre b post asize).epiMin else e₁.prevMin)
      (if post = [] then (L.carved pre b post asize).epiAlloc else e₁.prevAlloc) true) :
    Carved h { h' with heapEnd := if post = [] then carveEnd b asize else h.heapEnd } L
      (L.carved pre b post asize) (pre ++ post) ∧ KeepsFront h h' := by
  have closed := hole.rejoin chosen.before chosen.blockAt.addr.symm row edge chosen.after rfl
    chosen.postAlloc header
  have wf : h'.WellFormed (L.carved pre b post asize) := by
    refine ⟨hole.heapStart.symm ▸ chosen.sound.start_pos, ?_, hole.brk.symm ▸ chosen.sound.brk_le,
      chosen.coalesced asize, index⟩
    have start : h'.startEdge (L.carved pre b post asize) = h.startEdge L := by
      rw [startEdge, hole.heapStart]
      rfl
    rw [start]
    show h'.Closed (h.startEdge L) (pre ++ carve b asize ++ post) _ _
    by_cases last : post = []
    · simpa only [if_pos last] using closed
    · have flags : (L.carved pre b post asize).epiMin = L.epiMin ∧
          (L.carved pre b post asize).epiAlloc = L.epiAlloc := ⟨if_neg last, if_neg last⟩
      rw [if_neg last, if_neg last] at closed
      rw [flags.1, flags.2]
      exact closed
  have front : KeepsFront h h' :=
    hole.keepsFront chosen.before rfl chosen.blockAt.addr.symm (Nat.le_add_right ..)
  refine ⟨⟨⟨wf.setHeapEnd _, hole.heapStart.symm ▸ chosen.sound.start_aligned,
    hole.maxAddr.symm ▸ chosen.sound.maxAddr_le, ?_⟩,
    fun c member alloc a ge lt => hole.payload member alloc ge lt, hole.brk, hole.heapStart⟩, front⟩
  by_cases last : post = []
  · obtain ⟨front, c, shape, addr, status, size⟩ := carve_last b asize
    refine ⟨c, ?_, ?_, ?_, fun isMin => ?_⟩
    · simp [Layout.carved, shape, last]
    · exact (if_pos last).trans addr.symm
    · simp [Layout.carved, last, status]
    · simp only [Layout.carved, if_pos last, Bool.and_eq_true, decide_eq_true_eq] at isMin
      rw [size isMin.1, isMin.2]
  · obtain ⟨c, isLast, heapEnd, status, isMin⟩ := chosen.sound.last
    refine ⟨c, ?_, ?_, ?_, ?_⟩
    · rw [chosen.split, List.append_cons, List.getLast?_append_of_ne_nil _ last] at isLast
      exact (List.getLast?_append_of_ne_nil _ last).trans isLast
    · exact (if_neg last).trans heapEnd
    · simpa [Layout.carved, last] using status
    · simpa [Layout.carved, last] using isMin

/-! ## The two arms -/

section Branches

variable {h₂ h₃ h₄ : Heap} {block rest freeBlock tmp : Nat}

theorem splitBlock_split (left : wsub (h.getSize block) asize = rest) (enough : minBlockSize ≤ rest)
    (popped : h.pop block = some h₁)
    (taken : h₁.writeBlock block asize (h₁.getPrevMin block) (h₁.getPrevAlloc block) true = h₂)
    (isFree : h₂.findNext block = freeBlock)
    (pushed : (h₂.writeBlock freeBlock rest (asize = dsize) true false).push freeBlock = h₃)
    (isNext : h₃.findNext freeBlock = tmp) :
    h.splitBlock block asize = some
      (let h₄ := if h₃.header tmp ≠ 0x1 ∧ rest = dsize then h₃.setWord tmp (h₃.header tmp ||| prevMinMask)
        else h₃.setWord tmp (clearMask (h₃.header tmp) prevMinMask)
      if h.header (h.findNext block) = 0x1 then { h₄ with heapEnd := freeBlock } else h₄) := by
  have merged : (if asize = dsize then h₂.writeBlock freeBlock rest true true false
      else h₂.writeBlock freeBlock rest false true false) =
      h₂.writeBlock freeBlock rest (asize = dsize) true false := by
    by_cases small : asize = dsize <;> simp [small]
  simp only [splitBlock, left, ge_iff_le, if_pos enough, popped, Option.bind_eq_bind,
    Option.bind_some, taken, isFree, merged, pushed, isNext]

theorem splitBlock_whole (left : wsub (h.getSize block) asize < minBlockSize)
    (popped : h.pop block = some h₁)
    (taken : h₁.writeBlock block (h.getSize block) (h₁.getPrevMin block) (h₁.getPrevAlloc block) true = h₂)
    (isNext : h₂.findNext block = tmp) (tagged : h₂.setWord tmp (h₂.header tmp ||| prevAllocMask) = h₃)
    (marked : (if h.getSize block = minBlockSize then h₃.setWord tmp (h₃.header tmp ||| prevMinMask)
      else h₃) = h₄) :
    h.splitBlock block asize =
      some (if h.header (h.findNext block) = 0x1 then { h₄ with heapEnd := block } else h₄) := by
  simp only [splitBlock, ge_iff_le, if_neg (Nat.not_le.mpr left), popped, Option.bind_eq_bind,
    Option.bind_some, taken, isNext, tagged, marked]

end Branches

namespace Chosen

/-- `heap_end` follows where the block was the last one. -/
theorem setHeapEnd {h₄ : Heap} {x : Nat} (chosen : Chosen h L pre b post e₀)
    (kept : h₄.heapEnd = h.heapEnd) (marked : post = [] → L.epiMin = true → x = b.addr) :
    (if h.header (h.findNext b.addr) = 0x1 then { h₄ with heapEnd := x } else h₄) =
      { h₄ with heapEnd := if post = [] then x else h.heapEnd } := by
  have next : h.findNext b.addr = b.addr + b.size := by
    rw [findNext, chosen.blockAt.getSize chosen.legal.isSize]
  rw [next]
  by_cases one : h.header (b.addr + b.size) = 1
  · rw [if_pos one, if_pos (chosen.next_header_one.mp one).1]
  · rw [if_neg one]
    by_cases last : post = []
    · have epiMin : L.epiMin = true := by
        by_contra clear
        exact one (chosen.next_header_one.mpr ⟨last, by simpa using clear⟩)
      rw [if_pos last, marked last epiMin, ← (chosen.epilogue last).1, ← kept]
    · rw [if_neg last, ← kept]

/-- The second step of both arms: the header of the allocated part. -/
theorem take (chosen : Chosen h L pre b post e₀) (isSize : IsSize asize) (least : 16 ≤ asize) :
    ∃ h₁ h₂, h.pop b.addr = some h₁ ∧
      h₁.writeBlock b.addr asize (h₁.getPrevMin b.addr) (h₁.getPrevAlloc b.addr) true = h₂ ∧
      Hole h h₂ pre [] post b.addr (b.addr + b.size) ∧
      h₂.header b.addr = pack asize e₀.prevMin e₀.prevAlloc true ∧
      h₂.findNext b.addr = b.addr + asize ∧
      h₂.header (b.addr + b.size) = h.header (b.addr + b.size) := by
  have wide := chosen.legal.le_size
  obtain ⟨h₁, popped, hole₁, keptB, keptN⟩ := chosen.pop
  have prevMin : h₁.getPrevMin b.addr = e₀.prevMin :=
    (congrArg extractPrevMin keptB).trans (chosen.blockAt.getPrevMin chosen.legal.isSize)
  have prevAlloc : h₁.getPrevAlloc b.addr = e₀.prevAlloc :=
    (congrArg extractPrevAlloc keptB).trans (chosen.blockAt.getPrevAlloc chosen.legal.isSize)
  have outside : ∀ a, (a < b.addr ∨ b.addr + 8 ≤ a) →
      (h₁.writeBlock b.addr asize e₀.prevMin e₀.prevAlloc true).mem a = h₁.mem a :=
    fun a out => writeBlock_alloc_outside isSize out
  have header : (h₁.writeBlock b.addr asize e₀.prevMin e₀.prevAlloc true).header b.addr =
      pack asize e₀.prevMin e₀.prevAlloc true := writeBlock_header isSize least
  rw [← prevMin, ← prevAlloc] at outside header
  refine ⟨h₁, _, popped, rfl, ?_, ?_, ?_, ?_⟩
  · exact hole₁.write (writeBlock_globals ..) outside le_rfl (by omega) (by simp)
  · rw [header, prevMin, prevAlloc]
  · rw [findNext, getSize, header, extractSize_pack isSize]
  · exact (header_congr fun a ge _ => outside a (Or.inr (by omega))).trans keptN

/-- The whole block is taken. -/
theorem takeWhole (chosen : Chosen h L pre b post e₀) :
    ∃ h', h.splitBlock b.addr b.size = some h' ∧
      Carved h h' L (L.carved pre b post b.size) (pre ++ post) ∧ KeepsFront h h' := by
  have isSize := chosen.legal.isSize
  have wide := chosen.legal.le_size
  have size : h.getSize b.addr = b.size := chosen.blockAt.getSize isSize
  have nextIsSize := chosen.next_isSize
  obtain ⟨h₁, h₂, popped, taken, hole₂, header₂, next₂, after₂⟩ := chosen.take isSize wide
  -- the flags of the next header
  obtain ⟨hole₃, header₃, outside₃⟩ := hole₂.setHeader (by omega) (pack_lt nextIsSize
    (if post = [] then L.epiMin else b.size = minBlockSize) true true)
  obtain ⟨h₄, marked, hole₄, header₄, outside₄⟩ := hole₃.setPrevMin (by omega) header₃ nextIsSize
    (c := h.getSize b.addr = minBlockSize)
  have tagged : h₂.setWord (b.addr + b.size) (h₂.header (b.addr + b.size) ||| prevAllocMask) =
      h₂.setWord (b.addr + b.size) (pack (nextSize post)
        (if post = [] then L.epiMin else b.size = minBlockSize) true true) := by
    rw [after₂, chosen.next_header, pack_set_prevAlloc nextIsSize]
  have step := splitBlock_whole
    (by rw [size, wsub_of_le le_rfl isSize.2]; simp [minBlockSize, dsize, wsize])
    popped (by rw [size, taken]) next₂ tagged marked
  rw [chosen.setHeapEnd hole₄.heapEnd fun _ _ => rfl] at step
  have row : h₄.Tagged e₀ (carve b b.size)
      { addr := b.addr + b.size, prevAlloc := true, prevMin := b.size = minBlockSize } := by
    have header : h₄.header b.addr = pack b.size e₀.prevMin e₀.prevAlloc true :=
      ((header_congr fun a _ lt => (outside₄ a (Or.inl (by omega))).trans
        (outside₃ a (Or.inl (by omega)))).trans header₂)
    rw [carve, if_pos rfl]
    exact ⟨⟨chosen.blockAt.addr, chosen.legal.size_pos, chosen.legal.aligned, header, by simp⟩, rfl⟩
  have index : ∃ lists, h₄.Indexed (pre ++ carve b b.size ++ post) lists := by
    obtain ⟨lists, index⟩ := hole₄.index
    rw [carve, if_pos rfl, List.append_assoc, List.singleton_append]
    exact ⟨lists, (Indexed.alloc_iff rfl).mpr (by simpa using index)⟩
  have done := chosen.carved hole₄ index row rfl (by
    rw [header₄, size]
    by_cases last : post = []
    · by_cases isMin : b.size = minBlockSize
      · simp [last, isMin, Layout.carved]
      · have clear : L.epiMin = false := by
          by_contra set
          exact isMin ((chosen.epilogue last).2.2 (by simpa using set))
        simp [last, isMin, Layout.carved, clear]
    · by_cases isMin : b.size = minBlockSize <;> simp [last, isMin])
  have place : carveEnd b b.size = b.addr := if_pos rfl
  rw [place] at done
  exact ⟨_, step, done⟩

/-- The flag that the next header gets about the rest of the block.  The epilogue is never
marked: if it reads `0x1` the mark is skipped, and otherwise the block had the minimum size. -/
theorem markRest {h₃ : Heap} {f : Block} (chosen : Chosen h L pre b post e₀)
    (hole : Hole h h₃ pre [f] post b.addr (b.addr + b.size))
    (kept : h₃.header (b.addr + b.size) = h.header (b.addr + b.size)) (less : f.size < b.size) :
    ∃ h₄,
      (if h₃.header (b.addr + b.size) ≠ 0x1 ∧ f.size = dsize then
        h₃.setWord (b.addr + b.size) (h₃.header (b.addr + b.size) ||| prevMinMask)
      else h₃.setWord (b.addr + b.size) (clearMask (h₃.header (b.addr + b.size)) prevMinMask)) = h₄ ∧
      Hole h h₄ pre [f] post b.addr (b.addr + b.size) ∧
      h₄.header (b.addr + b.size) = pack (nextSize post) (if post = [] then false else f.size = dsize)
        (if post = [] then L.epiAlloc else false) true ∧
      ∀ a, (a < b.addr + b.size ∨ b.addr + b.size + 8 ≤ a) → h₄.mem a = h₃.mem a := by
  have nextIsSize := chosen.next_isSize
  by_cases mark : h₃.header (b.addr + b.size) ≠ 0x1 ∧ f.size = dsize
  · have nonempty : post ≠ [] := by
      intro last
      obtain ⟨-, status, isMin⟩ := chosen.epilogue last
      refine mark.1 (kept.trans (chosen.next_header_one.mpr ⟨last, ?_⟩))
      by_contra set
      have whole : b.size = minBlockSize := isMin (by simpa using set)
      exact less.ne (mark.2.trans whole.symm)
    rw [if_pos mark, kept, chosen.next_header, pack_set_prevMin nextIsSize]
    simp only [if_neg nonempty, mark.2, decide_true]
    exact ⟨_, rfl, hole.setHeader (by omega) (pack_lt nextIsSize ..)⟩
  · have flag : (if post = [] then false else decide (f.size = dsize)) = false := by
      by_cases last : post = []
      · rw [if_pos last]
      · have notOne : h₃.header (b.addr + b.size) ≠ 1 := fun one =>
          last (chosen.next_header_one.mp (kept.symm.trans one)).1
        rw [if_neg last]
        exact decide_eq_false fun small => mark ⟨notOne, small⟩
    rw [if_neg mark, kept, chosen.next_header, pack_clear_prevMin nextIsSize, flag]
    exact ⟨_, rfl, hole.setHeader (by omega) (pack_lt nextIsSize ..)⟩

/-- A part of the block is taken; the rest stays free. -/
theorem takePart (chosen : Chosen h L pre b post e₀) (aligned : asize % 16 = 0)
    (least : minBlockSize ≤ asize) (less : asize < b.size) :
    ∃ h', h.splitBlock b.addr asize = some h' ∧
      Carved h h' L (L.carved pre b post asize) (pre ++ post) ∧ KeepsFront h h' := by
  have isSize := chosen.legal.isSize
  have fits := chosen.legal.fits
  have size : h.getSize b.addr = b.size := chosen.blockAt.getSize isSize
  have notWhole : b.size ≠ asize := less.ne'
  have least' : 16 ≤ asize := least
  have takenIsSize : IsSize asize := ⟨aligned, by omega⟩
  obtain ⟨f, isF⟩ : ∃ f : Block, f = ⟨b.addr + asize, b.size - asize, false⟩ := ⟨_, rfl⟩
  have place : f.addr = b.addr + asize := isF ▸ rfl
  have rest : f.size = b.size - asize := isF ▸ rfl
  have legal : f.Legal := by
    have := isSize.1
    exact ⟨by omega, by omega, by omega, by omega⟩
  have carved : carve b asize = [⟨b.addr, asize, true⟩, f] := by rw [carve, if_neg notWhole, isF]
  obtain ⟨h₁, h₂, popped, taken, hole₂, header₂, next₂, after₂⟩ := chosen.take takenIsSize least'
  rw [← place] at next₂
  -- the free part goes back into the lists
  obtain ⟨h₃, pushed, hole₃, block₃, after₃, outside₃⟩ := hole₂.fill legal (by omega) (by omega)
    (isF ▸ rfl) (show f.addr = (Edge.mk f.addr true (asize = dsize)).addr from rfl)
  have next₃ : h₃.findNext f.addr = b.addr + b.size := by
    rw [findNext, block₃.getSize legal.isSize]
    omega
  have left : wsub (h.getSize b.addr) asize = f.size := by
    rw [size, wsub_of_le less.le isSize.2, rest]
  have step := splitBlock_split left legal.le_size popped taken next₂ pushed next₃
  -- the flag of the next header
  obtain ⟨h₄, marked, hole₄, header₄, outside₄⟩ :=
    chosen.markRest hole₃ (after₃.trans after₂) (by omega)
  simp only [marked] at step
  rw [chosen.setHeapEnd hole₄.heapEnd fun last set => by
    have := (chosen.epilogue last).2.2 set
    have : minBlockSize = 16 := rfl
    omega] at step
  have row : h₄.Tagged e₀ (carve b asize) f.edge := by
    have header : h₄.header b.addr = pack asize e₀.prevMin e₀.prevAlloc true := by
      refine (header_congr fun a ge lt => (outside₄ a (Or.inl (by omega))).trans
        (outside₃ a (Or.inl (by omega)) ?_)).trans header₂
      refine hole₃.inner_linkless ge (by omega) fun c member => Or.inl ?_
      obtain rfl := List.mem_singleton.mp member
      omega
    have tail : h₃.Tagged ⟨f.addr, true, asize = dsize⟩ [f] f.edge := ⟨block₃, rfl⟩
    have tail₄ : h₄.Tagged ⟨f.addr, true, asize = dsize⟩ [f] f.edge :=
      tail.frame hole₃.spaced (by simp) fun a _ lt _ =>
        outside₄ a (Or.inl (lt_of_lt_of_eq lt (show f.addr + f.size = _ by omega)))
    rw [carved]
    refine ⟨⟨chosen.blockAt.addr, by simp only; omega, aligned, header, by simp⟩, ?_⟩
    rw [place] at tail₄
    exact tail₄
  have index : ∃ lists, h₄.Indexed (pre ++ carve b asize ++ post) lists := by
    obtain ⟨lists, index⟩ := hole₄.index
    rw [carved, List.append_assoc, List.cons_append]
    exact ⟨lists, (Indexed.alloc_iff rfl).mpr (by simpa using index)⟩
  have done := chosen.carved hole₄ index row (show f.addr + f.size = _ by omega) (by
    rw [header₄]
    by_cases last : post = []
    · simp [last, Layout.carved, notWhole, (chosen.epilogue last).2.1]
    · simp only [if_neg last]
      rw [Block.edge, isF]
      rfl)
  have top : carveEnd b asize = f.addr := (if_neg notWhole).trans place.symm
  rw [top] at done
  exact ⟨_, step, done⟩

end Chosen

/-- **`split_block`** allocates a free block of the heap. -/
theorem splitBlock_spec (sound : h.Sound L) (member : b ∈ L.blocks) (free : b.alloc = false)
    (aligned : asize % 16 = 0) (least : minBlockSize ≤ asize) (le : asize ≤ b.size) :
    ∃ pre post h', L.blocks = pre ++ b :: post ∧ h.splitBlock b.addr asize = some h' ∧
      Carved h h' L (L.carved pre b post asize) (pre ++ post) ∧ KeepsFront h h' := by
  obtain ⟨pre, post, e₀, chosen⟩ := sound.choose member free
  by_cases whole : b.size = asize
  · subst whole
    obtain ⟨h', step, carved⟩ := chosen.takeWhole
    exact ⟨pre, post, h', chosen.split, step, carved⟩
  · obtain ⟨h', step, carved⟩ := chosen.takePart aligned least (by omega)
    exact ⟨pre, post, h', chosen.split, step, carved⟩

end Heap

end SystemsLabs.Malloc
