/-
# SystemsLabs.Malloc.Free -- `free` and its four coalescing cases

`Around bs b pre lo hi post` names the surroundings of a block: `lo` and `hi` are its
free neighbours, at most one on each side.  `free` replaces `lo ++ b :: hi` by one free
block.  `release` is what it does before it coalesces; `Released` is the heap there,
with `b` in no list yet, and each of the four cases of `coalesce_block` fills the hole
that `b` and its free neighbours leave.
-/
import SystemsLabs.Malloc.Hole

namespace SystemsLabs.Malloc

open SystemsLabs.Theory.ByteMemory

set_option autoImplicit false

/-! ## A block and its free neighbours -/

/-- `b` in its heap, with the free blocks `lo` before it and `hi` after it. -/
structure Around (bs : List Block) (b : Block) (pre lo hi post : List Block) : Prop where
  split : bs = pre ++ (lo ++ b :: hi) ++ post
  low : lo = [] ∨ ∃ x, lo = [x] ∧ x.alloc = false
  high : hi = [] ∨ ∃ n, hi = [n] ∧ n.alloc = false
  preAlloc : ∀ x, pre.getLast? = some x → x.alloc = true
  postAlloc : nextAlloc post = true

/-- One free block in place of `lo ++ b :: hi`. -/
def merged (lo : List Block) (b : Block) (hi : List Block) : Block where
  addr := (lo.head?.getD b).addr
  size := ((lo ++ b :: hi).map Block.size).sum
  alloc := false

/-- The heap after `free` of `b`.  The epilogue's `prev_min` survives only where nothing
was merged. -/
def Layout.freed (L : Layout) (b : Block) (pre lo hi post : List Block) : Layout where
  blocks := pre ++ [merged lo b hi] ++ post
  firstMin := L.firstMin
  epiMin := L.epiMin && (!post.isEmpty || (lo.isEmpty && hi.isEmpty))
  epiAlloc := L.epiAlloc && (!post.isEmpty || !hi.isEmpty)

section Around

variable {bs pre lo hi post : List Block} {b x : Block}

/-- Where no two neighbours are free, at most one block on each side of `b` is merged. -/
theorem exists_around (chain : bs.IsChain fun b c => b.alloc = true ∨ c.alloc = true)
    (member : b ∈ bs) : ∃ pre lo hi post, Around bs b pre lo hi post := by
  obtain ⟨before, after, rfl⟩ := List.append_of_mem member
  have below : ∃ pre lo, before = pre ++ lo ∧ (lo = [] ∨ ∃ x, lo = [x] ∧ x.alloc = false) ∧
      ∀ x, pre.getLast? = some x → x.alloc = true := by
    rcases List.eq_nil_or_concat' before with rfl | ⟨front, x, rfl⟩
    · exact ⟨[], [], rfl, Or.inl rfl, by simp⟩
    · cases status : x.alloc with
      | true => exact ⟨front ++ [x], [], by simp, Or.inl rfl, by simp [status]⟩
      | false =>
          refine ⟨front, [x], rfl, Or.inr ⟨x, rfl, status⟩, fun y last => ?_⟩
          obtain ⟨front, rfl⟩ := List.getLast?_eq_some_iff.mp last
          have next := (List.isChain_append.mp chain).1
          have := (List.isChain_append.mp next).2.2 y (by simp) x (by simp)
          simpa [status] using this
  have above : ∃ hi post, after = hi ++ post ∧ (hi = [] ∨ ∃ n, hi = [n] ∧ n.alloc = false) ∧
      nextAlloc post = true := by
    cases after with
    | nil => exact ⟨[], [], rfl, Or.inl rfl, rfl⟩
    | cons n rest =>
        cases status : n.alloc with
        | true => exact ⟨[], n :: rest, rfl, Or.inl rfl, status⟩
        | false =>
            refine ⟨[n], rest, rfl, Or.inr ⟨n, rfl, status⟩, ?_⟩
            cases rest with
            | nil => rfl
            | cons y rest =>
                have tail := (List.isChain_cons_cons.mp (List.isChain_append.mp chain).2.1).2
                have := (List.isChain_cons_cons.mp tail).1
                show y.alloc = true
                simpa [status] using this
  obtain ⟨pre, lo, rfl, low, preAlloc⟩ := below
  obtain ⟨hi, post, rfl, high, postAlloc⟩ := above
  exact ⟨pre, lo, hi, post, by simp, low, high, preAlloc, postAlloc⟩

theorem Around.mem (around : Around bs b pre lo hi post) : b ∈ bs := by
  rw [around.split]
  simp

/-- The allocated blocks other than `b` are the allocated blocks outside the merged range. -/
theorem Around.outer_of_alloc (around : Around bs b pre lo hi post) (member : x ∈ bs)
    (alloc : x.alloc = true) (ne : x ≠ b) : x ∈ pre ++ post := by
  rw [around.split] at member
  simp only [List.mem_append, List.mem_cons] at member ⊢
  rcases member with (inPre | inLo | rfl | inHi) | inPost
  · exact Or.inl inPre
  · rcases around.low with rfl | ⟨y, rfl, free⟩
    · simp at inLo
    · obtain rfl := List.mem_singleton.mp inLo
      rw [alloc] at free
      cases free
  · exact absurd rfl ne
  · rcases around.high with rfl | ⟨y, rfl, free⟩
    · simp at inHi
    · obtain rfl := List.mem_singleton.mp inHi
      rw [alloc] at free
      cases free
  · exact Or.inr inPost

theorem Around.mem_freed {L : Layout} (around : Around L.blocks b pre lo hi post)
    (member : x ∈ L.blocks) (alloc : x.alloc = true) (ne : x ≠ b) :
    x ∈ (L.freed b pre lo hi post).blocks := by
  rcases List.mem_append.mp (around.outer_of_alloc member alloc ne) with inPre | inPost
  · exact List.mem_append_left _ (List.mem_append_left _ inPre)
  · exact List.mem_append_right _ inPost

/-- The other live pointers stay live. -/
theorem Around.live_freed {L : Layout} {q : Nat} (around : Around L.blocks b pre lo hi post)
    (live : L.Live q) (ne : q ≠ headerToPayload b.addr) : (L.freed b pre lo hi post).Live q := by
  obtain ⟨c, member, alloc, rfl⟩ := live
  refine ⟨c, around.mem_freed member alloc ?_, alloc, rfl⟩
  rintro rfl
  exact ne rfl

/-- The result has no two neighbouring free blocks. -/
theorem Around.coalesced (around : Around bs b pre lo hi post)
    (chain : bs.IsChain fun b c => b.alloc = true ∨ c.alloc = true) :
    (pre ++ [merged lo b hi] ++ post).IsChain fun b c => b.alloc = true ∨ c.alloc = true := by
  rw [around.split] at chain
  obtain ⟨left, right, -⟩ := List.isChain_append.mp chain
  refine List.isChain_append.mpr ⟨List.isChain_append.mpr ⟨(List.isChain_append.mp left).1,
    List.isChain_singleton _, fun y last z _ => Or.inl (around.preAlloc y last)⟩, right,
    fun y _ z first => Or.inr ?_⟩
  have alloc := around.postAlloc
  cases post with
  | nil => simp at first
  | cons w post =>
      obtain rfl : w = z := by simpa using first
      exact alloc

end Around

namespace Heap

variable {h h₁ h₃ : Heap} {L : Layout} {b x n : Block} {pre lo hi post : List Block}
variable {e₀ e e₁ : Edge} {pm pa : Bool}

/-! ## Releasing the block -/

/-- The first half of `free`: the block is marked free, in its own header and in the next. -/
def release (h : Heap) (block : Nat) : Heap :=
  let size := h.getSize block
  let h := h.writeBlock block size (h.getPrevMin block) (h.getPrevAlloc block) false
  let blockNext := h.findNext block
  h.setWord blockNext (clearMask (h.header blockNext) prevAllocMask)

theorem free_eq {bp : Nat} (nonnull : bp ≠ 0) :
    h.free bp = ((h.release (payloadToHeader bp)).coalesceBlock (payloadToHeader bp)).map Prod.snd := by
  rw [Heap.free, if_neg nonnull]
  rfl

/-- The heap between the two halves of `free`. -/
structure Released (h h₁ : Heap) (L : Layout) (b : Block) (pre lo hi post : List Block)
    (e₀ e e₁ : Edge) : Prop where
  before : h.Tagged (h.startEdge L) pre e₀
  hole : Hole h h₁ pre (lo ++ hi) post e₀.addr e₁.addr
  low : h₁.Tagged e₀ lo e
  block : h₁.BlockAt e { b with alloc := false }
  legal : b.Legal
  next : h₁.header (b.addr + b.size) = pack (nextSize (hi ++ post))
    (if hi ++ post = [] then L.epiMin else b.size = minBlockSize) false (nextAlloc (hi ++ post))
  high : h.Tagged b.edge hi e₁
  after : h.Closed e₁ post L.epiMin L.epiAlloc
  nnext : hi ≠ [] → h₁.header e₁.addr = h.header e₁.addr

theorem release_eq (blockAt : h.BlockAt e b) (legal : b.Legal) :
    h.release b.addr = (h.writeBlock b.addr b.size e.prevMin e.prevAlloc false).setWord
      (b.addr + b.size) (clearMask (h.header (b.addr + b.size)) prevAllocMask) := by
  have written : (h.writeBlock b.addr b.size e.prevMin e.prevAlloc false).findNext b.addr =
      b.addr + b.size := by
    have := (writeBlock_blockAt (h := h) (e := e) (m := { b with alloc := false }) legal.isSize
      legal.le_size blockAt.addr).getSize legal.isSize
    rw [findNext, this]
  have next : (h.writeBlock b.addr b.size e.prevMin e.prevAlloc false).header (b.addr + b.size) =
      h.header (b.addr + b.size) :=
    header_congr fun a lo _ => writeBlock_outside legal.isSize legal.le_size (Or.inr lo)
  simp only [release, blockAt.getSize legal.isSize, blockAt.getPrevMin legal.isSize,
    blockAt.getPrevAlloc legal.isSize, written, next]

/-- The bytes of a block and its free neighbours, as a range between the other blocks. -/
theorem region_of_rows (around : Around L.blocks b pre lo hi post) (wf : h.WellFormed L)
    (before : h.Tagged (h.startEdge L) pre e₀) (low : h.Tagged e₀ lo e) (blockAt : h.BlockAt e b)
    (high : h.Tagged b.edge hi e₁) (after : h.Closed e₁ post pm pa) :
    Region pre (lo ++ hi) post e₀.addr e₁.addr where
  spaced := by
    have spaced := wf.spaced
    rw [around.split] at spaced
    refine spaced.sublist (List.Sublist.append_right (List.Sublist.append_left ?_ _) _)
    exact List.Sublist.append_left (List.sublist_cons_self ..) _
  below c member := (before.bounds.2.2 c member).2.2.1
  within c member := by
    have := blockAt.addr_edge
    have := low.bounds
    have := high.bounds
    rcases List.mem_append.mp member with inLo | inHi
    · have := low.bounds.2.2 c inLo
      omega
    · have := high.bounds.2.2 c inHi
      omega
  above c member := by
    obtain ⟨e', tail, -⟩ := after
    exact (tail.bounds.2.2 c member).1

theorem release_spec (wf : h.WellFormed L) (around : Around L.blocks b pre lo hi post)
    (alloc : b.alloc = true) :
    ∃ e₀ e e₁, Released h (h.release b.addr) L b pre lo hi post e₀ e e₁ := by
  have closed := wf.closed
  have legal := wf.spaced.legal b around.mem
  obtain ⟨lists, index⟩ := wf.indexed
  rw [around.split] at closed index
  obtain ⟨e₁, row, after⟩ := closed_append.mp closed
  obtain ⟨e₀, before, row⟩ := tagged_append.mp row
  obtain ⟨e, low, blockAt, high⟩ := tagged_append.mp row
  have rest : h.Closed b.edge (hi ++ post) L.epiMin L.epiAlloc := closed_append.mpr ⟨e₁, high, after⟩
  have region := region_of_rows around wf before low blockAt high after
  have start := blockAt.addr
  have step := blockAt.addr_edge
  have wide := legal.le_size
  have lowBounds := low.bounds
  have highBounds := high.bounds
  have shape : pre ++ (lo ++ b :: hi) ++ post = (pre ++ lo) ++ b :: (hi ++ post) := by simp
  have shape' : pre ++ (lo ++ hi) ++ post = (pre ++ lo) ++ (hi ++ post) := by simp
  have unlisted : h.Indexed (pre ++ (lo ++ hi) ++ post) lists :=
    shape' ▸ (Indexed.alloc_iff alloc).mp (shape ▸ index)
  have within : ∀ c ∈ lo ++ hi, 16 ≤ c.size ∧
      (c.addr + c.size ≤ b.addr ∨ b.addr + b.size ≤ c.addr) := by
    intro c member
    refine ⟨(region.spaced.legal c
      (List.mem_append_left _ (List.mem_append_right _ member))).le_size, ?_⟩
    rcases List.mem_append.mp member with inLo | inHi
    · exact Or.inl (by have := lowBounds.2.2 c inLo; omega)
    · exact Or.inr (by have := highBounds.2.2 c inHi; omega)
  have outside : ∀ a, (a < b.addr ∨ b.addr + b.size ≤ a) →
      (h.writeBlock b.addr b.size e.prevMin e.prevAlloc false).mem a = h.mem a :=
    fun a out => writeBlock_outside legal.isSize wide out
  have hole₁ := (Hole.start region unlisted).write
    (writeBlock_globals h b.addr b.size e.prevMin e.prevAlloc false) outside
    (by omega) (by omega) (fun c member => by have := within c member; omega)
  have hole₂ := hole₁.write (setWord_globals _ (b.addr + b.size)
    (clearMask (h.header (b.addr + b.size)) prevAllocMask)) (fun a out => setWord_outside out)
    (by omega) (by omega) (fun c member => by have := within c member; omega)
  have nextIsSize := rest.nextSize_isSize wf.brk_le
  have cleared : clearMask (h.header (b.addr + b.size)) prevAllocMask = pack (nextSize (hi ++ post))
      (if hi ++ post = [] then L.epiMin else b.size = minBlockSize) false (nextAlloc (hi ++ post)) := by
    have header := rest.header
    rw [step, ← start] at header
    rw [header, pack_clear_prevAlloc nextIsSize]
    rfl
  rw [release_eq blockAt legal]
  refine ⟨e₀, e, e₁, ⟨before, hole₂, ?_, ?_, legal, ?_, high, after, ?_⟩⟩
  · refine low.frame region.spaced
      (fun c member => List.mem_append_left _ (List.mem_append_right _ (List.mem_append_left _ member)))
      fun a _ lt _ => ?_
    rw [setWord_outside (by omega), outside a (by omega)]
  · have written := writeBlock_blockAt (h := h) (e := e) (m := { b with alloc := false }) legal.isSize
      wide blockAt.addr
    have header := header_congr (p := b.addr) fun a _ lt => setWord_outside
      (h := h.writeBlock b.addr b.size e.prevMin e.prevAlloc false) (p := b.addr + b.size)
      (v := clearMask (h.header (b.addr + b.size)) prevAllocMask) (Or.inl (by omega))
    refine ⟨written.addr, written.size_pos, written.aligned, header.trans written.header,
      fun _ notMin => ?_⟩
    refine (word_congr fun a _ lt => setWord_outside (Or.inl ?_)).trans
      ((written.footer rfl notMin).trans header.symm)
    simp only [wsize] at lt
    omega
  · rw [Heap.header, word_setWord (cleared ▸ pack_lt nextIsSize ..), cleared]
  · intro nonempty
    obtain ⟨n, rest, rfl⟩ := List.exists_cons_of_ne_nil nonempty
    have := highBounds.2.2 n (List.mem_cons_self ..)
    have := within n (by simp)
    apply header_congr
    intro a ge lt
    rw [setWord_outside (by omega), outside a (by omega)]

/-! ## What `coalesce_block` reads -/

namespace Released

variable (rel : Released h h₁ L b pre lo hi post e₀ e e₁)

include rel

theorem findNext : h₁.findNext b.addr = b.addr + b.size := by
  rw [Heap.findNext, rel.block.getSize rel.legal.isSize]

theorem next_isSize (wf : h.WellFormed L) : IsSize (nextSize (hi ++ post)) :=
  (closed_append.mpr ⟨e₁, rel.high, rel.after⟩).nextSize_isSize wf.brk_le

theorem next_getAlloc (wf : h.WellFormed L) (around : Around L.blocks b pre lo hi post) :
    h₁.getAlloc (b.addr + b.size) = hi.isEmpty := by
  rw [Heap.getAlloc, rel.next, extractAlloc_pack (rel.next_isSize wf)]
  rcases around.high with rfl | ⟨n, rfl, free⟩
  · exact around.postAlloc
  · exact free

theorem next_getSize (wf : h.WellFormed L) :
    h₁.getSize (b.addr + b.size) = nextSize (hi ++ post) := by
  rw [Heap.getSize, rel.next, extractSize_pack (rel.next_isSize wf)]

theorem getPrevAlloc (around : Around L.blocks b pre lo hi post) :
    h₁.getPrevAlloc b.addr = lo.isEmpty := by
  rw [rel.block.getPrevAlloc rel.legal.isSize]
  rcases around.low with rfl | ⟨x, rfl, free⟩
  · obtain rfl := rel.low
    rcases List.eq_nil_or_concat' pre with rfl | ⟨front, y, rfl⟩
    · obtain rfl := rel.before
      rfl
    · rw [rel.before.edge_of_snoc]
      exact around.preAlloc y (by simp)
  · obtain rfl := rel.low.2
    exact free

/-- The first branch of `coalesce_block`, for the first block of the heap, is never taken:
the word before a block is not where the blocks start. -/
theorem notFirst (wf : h.WellFormed L) : b.addr - wsize ≠ h₁.heapStart := by
  have place : e₀.addr ≤ b.addr ∧ (b.addr - e₀.addr) % 16 = 0 := by
    have := rel.low.bounds
    have := rel.block.addr
    simp only at this
    omega
  have before := rel.before.bounds
  have start : (h.startEdge L).addr = h.heapStart := rfl
  have := rel.hole.heapStart
  have := wf.start_pos
  simp only [wsize]
  omega

/-- The merged block fills the range. -/
theorem merged_range : (merged lo b hi).addr = e₀.addr ∧
    (merged lo b hi).addr + (merged lo b hi).size = e₁.addr := by
  have lowWidth := rel.low.width
  have highWidth := rel.high.width
  have start := rel.block.addr
  have step : b.edge.addr = b.addr + b.size := rfl
  have first : (merged lo b hi).addr = e₀.addr := by
    have row := rel.low
    cases lo with
    | nil =>
        obtain rfl := row
        exact start
    | cons x lo => exact row.1.addr
  refine ⟨first, ?_⟩
  rw [first]
  simp only [merged, List.map_append, List.map_cons, List.sum_append, List.sum_cons]
  simp only at start
  omega

theorem merged_legal (wf : h.WellFormed L) : (merged lo b hi).Legal := by
  obtain ⟨first, last⟩ := rel.merged_range
  have before := rel.before.bounds
  have start : (h.startEdge L).addr = h.heapStart := rfl
  have top := rel.after.brk
  have pos := wf.start_pos
  have fits := wf.brk_le
  have lowBounds := rel.low.bounds
  have highBounds := rel.high.bounds
  have step : b.edge.addr = b.addr + b.size := rfl
  have place := rel.block.addr
  have := rel.legal.size_pos
  have := rel.legal.aligned
  simp only [wsize] at top
  simp only at place
  exact ⟨by omega, by omega, by omega, by omega⟩

end Released

/-! ## The cases of `coalesce_block` -/

/-- `heap_end` after `free`: it follows a merged block only where the next block was free. -/
def freedEnd (heapEnd : Nat) (lo : List Block) (b : Block) : List Block → Nat
  | [] => heapEnd
  | n :: hi =>
      if n.addr = heapEnd ∨ (lo ≠ [] ∧ b.addr = heapEnd) then (merged lo b (n :: hi)).addr
      else heapEnd

/-- The effect of `free` on a heap. -/
structure Freed (h h' : Heap) (L : Layout) (b : Block) (pre lo hi post : List Block) : Prop where
  wellFormed : h'.WellFormed (L.freed b pre lo hi post)
  payload : ∀ c ∈ pre ++ post, c.alloc = true → ∀ a, c.addr + 8 ≤ a → a < c.addr + c.size →
    h'.mem a = h.mem a
  brk : h'.brk = h.brk
  maxAddr : h'.maxAddr = h.maxAddr
  heapStart : h'.heapStart = h.heapStart
  heapEnd : h'.heapEnd = freedEnd h.heapEnd lo b hi

/-- What `free` did, and that it wrote nothing before the first block. -/
structure FreedInside (h h' : Heap) (L : Layout) (b : Block) (pre lo hi post : List Block) : Prop
    extends Freed h h' L b pre lo hi post where
  front : KeepsFront h h'

/-- A merged block in place of the hole, and its flags in the header after it, complete the
heap. -/
theorem Released.freed {h' : Heap} (rel : Released h h₁ L b pre lo hi post e₀ e e₁)
    (wf : h.WellFormed L) (around : Around L.blocks b pre lo hi post)
    (hole : Hole h h' pre [merged lo b hi] post e₀.addr e₁.addr)
    (block : h'.BlockAt e₀ (merged lo b hi))
    (header : h'.header e₁.addr = pack (nextSize post)
      (if post = [] then (L.freed b pre lo hi post).epiMin
        else (merged lo b hi).size = minBlockSize)
      (if post = [] then (L.freed b pre lo hi post).epiAlloc else false) true) :
    FreedInside h { h' with heapEnd := freedEnd h.heapEnd lo b hi } L b pre lo hi post := by
  obtain ⟨first, last⟩ := rel.merged_range
  have mid : h'.Tagged e₀ [merged lo b hi] (merged lo b hi).edge := ⟨block, rfl⟩
  have closed := hole.rejoin rel.before rfl mid last rel.after rfl around.postAlloc header
  have wf' : h'.WellFormed (L.freed b pre lo hi post) := by
    refine ⟨hole.heapStart.symm ▸ wf.start_pos, ?_, hole.brk.symm ▸ wf.brk_le,
      around.coalesced wf.coalesced, hole.index⟩
    have start : h'.startEdge (L.freed b pre lo hi post) = h.startEdge L := by
      rw [startEdge, hole.heapStart]
      rfl
    rw [start]
    show h'.Closed (h.startEdge L) (pre ++ [merged lo b hi] ++ post) _ _
    by_cases isLast : post = []
    · simpa only [if_pos isLast] using closed
    · have nonempty : post.isEmpty = false := by simpa using isLast
      simpa only [if_neg isLast, Layout.freed, nonempty, Bool.not_false, Bool.true_or, Bool.and_true]
        using closed
  have front : KeepsFront h h' := hole.keepsFront rel.before rfl rfl (first ▸ last ▸ Nat.le_add_right ..)
  exact ⟨⟨wf'.setHeapEnd _, fun c member alloc a ge lt => hole.payload member alloc ge lt,
    hole.brk, hole.maxAddr, hole.heapStart, rfl⟩, front⟩

/-! The branches of `coalesce_block` as equations. -/

section Branches

variable {h₂ : Heap} {block next prevBlock : Nat}

/-- Case 1: Allocated | just_freed | Allocated. -/
theorem coalesceBlock_alone (dead : block - wsize ≠ h.heapStart)
    (prevAlloc : h.getPrevAlloc block = true) (nextAlloc : h.getAlloc (h.findNext block) = true) :
    h.coalesceBlock block = some (block, h.push block) := by
  simp [coalesceBlock, dead, prevAlloc, nextAlloc]

/-- Case 2: Allocated | just_freed | Free. -/
theorem coalesceBlock_next (dead : block - wsize ≠ h.heapStart)
    (prevAlloc : h.getPrevAlloc block = true) (isNext : h.findNext block = next)
    (nextFree : h.getAlloc next = false) (popped : h.pop next = some h₂) :
    h.coalesceBlock block = some (block,
      let h₃ := (h₂.writeBlock block (wadd (h.getSize block) (h.getSize next))
        (h₂.getPrevMin block) (h₂.getPrevAlloc block) false).push block
      let h₄ := if h.header (h.findNext next) ≠ 0x1 ∧ h₃.getPrevMin (h.findNext next) then
        h₃.setWord (h.findNext next) (clearMask (h₃.header (h.findNext next)) prevMinMask) else h₃
      if next = h₄.heapEnd then { h₄ with heapEnd := block } else h₄) := by
  simp [coalesceBlock, dead, prevAlloc, isNext, nextFree, popped]

/-- Case 3: Free | just_freed | Allocated. -/
theorem coalesceBlock_prev (dead : block - wsize ≠ h.heapStart)
    (prevFree : h.getPrevAlloc block = false) (isNext : h.findNext block = next)
    (nextAlloc : h.getAlloc next = true)
    (isPrev : h.prevBlockOf block (h.getPrevMin block) = prevBlock) (nonnull : prevBlock ≠ 0)
    (cleared : (if h.getPrevMin next then
      h.setWord next (clearMask (h.header next) prevMinMask) else h) = h₂)
    (popped : h₂.pop prevBlock = some h₃) :
    h.coalesceBlock block = some (prevBlock,
      (h₃.writeBlock prevBlock (wadd (h.getSize prevBlock) (h.getSize block))
        (h₃.getPrevMin prevBlock) (h₃.getPrevAlloc prevBlock) false).push prevBlock) := by
  simp [coalesceBlock, dead, prevFree, isNext, nextAlloc, isPrev, nonnull, cleared, popped]

/-- Case 4: Free | just_freed | Free. -/
theorem coalesceBlock_both (dead : block - wsize ≠ h.heapStart)
    (prevFree : h.getPrevAlloc block = false) (isNext : h.findNext block = next)
    (nextFree : h.getAlloc next = false)
    (isPrev : h.prevBlockOf block (h.getPrevMin block) = prevBlock) (nonnull : prevBlock ≠ 0)
    (popped : h.pop prevBlock = some h₂) (poppedNext : h₂.pop next = some h₃) :
    h.coalesceBlock block = some (prevBlock,
      let h₄ := (h₃.writeBlock prevBlock
        (wadd (wadd (h.getSize prevBlock) (h.getSize block)) (h.getSize next))
        (h₃.getPrevMin prevBlock) (h₃.getPrevAlloc prevBlock) false).push prevBlock
      let h₅ := if h.header (h.findNext next) ≠ 0x1 ∧ h₄.getPrevMin (h.findNext next) then
        h₄.setWord (h.findNext next) (clearMask (h₄.header (h.findNext next)) prevMinMask) else h₄
      if next = h₅.heapEnd ∨ block = h₅.heapEnd then { h₅ with heapEnd := prevBlock } else h₅) := by
  simp [coalesceBlock, dead, prevFree, isNext, nextFree, isPrev, nonnull, popped, poppedNext]

end Branches

namespace Released

/-- Case 1. -/
theorem coalesce_alone (rel : Released h h₁ L b pre [] [] post e₀ e e₁)
    (wf : h.WellFormed L) (around : Around L.blocks b pre [] [] post) :
    ∃ h', h₁.coalesceBlock b.addr = some (b.addr, h') ∧ FreedInside h h' L b pre [] [] post := by
  have prevAlloc := rel.getPrevAlloc around
  have nextAlloc := rel.next_getAlloc wf around
  have step := coalesceBlock_alone (rel.notFirst wf) prevAlloc (rel.findNext.symm ▸ nextAlloc)
  have same : merged [] b [] = { b with alloc := false } := by simp [merged]
  obtain ⟨first, last⟩ := rel.merged_range
  have legal := rel.merged_legal wf
  have block := rel.block
  obtain rfl := rel.low
  rw [← same] at block
  obtain ⟨hole, linkless⟩ := rel.hole.push legal first.ge last.le rfl (block.getSize legal.isSize)
  refine ⟨_, step, ?_⟩
  have mid : h₁.Tagged e₀ [merged [] b []] (merged [] b []).edge := ⟨block, rfl⟩
  have block' : (h₁.push b.addr).BlockAt e₀ (merged [] b []) :=
    (mid.frame hole.spaced (by simp) fun a _ _ off => linkless.mem a off).1
  have header : (h₁.push b.addr).header e₁.addr = h₁.header e₁.addr :=
    hole.header_kept linkless (by omega) le_rfl fun c member => by
      obtain rfl := List.mem_singleton.mp member
      exact Or.inr last.le
  have place : e₁.addr = b.addr + b.size := by
    obtain rfl := rel.high
    rfl
  rw [place, rel.next, ← place] at header
  have done := rel.freed wf around hole block' (by
    show (h₁.push b.addr).header e₁.addr = _
    rw [header, List.nil_append, around.postAlloc]
    by_cases isLast : post = []
    · simp [isLast, Layout.freed]
    · simp [isLast, same])
  have kept : freedEnd h.heapEnd [] b [] = (h₁.push b.addr).heapEnd := hole.heapEnd.symm
  rw [kept] at done
  exact done

/-- Where the next block is free, the header after it. -/
theorem nnext_header (rel : Released h h₁ L b pre lo [n] post e₀ e e₁)
    (around : Around L.blocks b pre lo [n] post) :
    h₁.header e₁.addr = pack (nextSize post) (if post = [] then L.epiMin else n.size = minBlockSize)
      (if post = [] then L.epiAlloc else false) true := by
  have free : n.alloc = false := by simpa using around.high
  obtain ⟨-, rfl⟩ := rel.high
  rw [rel.nnext (by simp), rel.after.header, around.postAlloc, Block.edge, free]

/-- Where the flag is not cleared it was not set. -/
theorem prevMin_idle {p size : Nat} {pm pa al : Bool} (isSize : IsSize size)
    (header : h.header p = pack size pm pa al) (header₁ : h₁.header p = pack size pm pa al)
    (idle : ¬ (h.header p ≠ 1 ∧ h₁.getPrevMin p = true)) : pm = false := by
  by_contra set
  rw [Bool.not_eq_false] at set
  refine idle ⟨fun one => ?_, ?_⟩
  · rw [header, pack_eq_one_iff isSize] at one
    exact absurd (one.2.1.symm.trans set) (by decide)
  · rw [Heap.getPrevMin, header₁, extractPrevMin_pack isSize, set]

/-- The end of a case: the merged block is in the lists and the header after it has been
looked at. -/
theorem finish {h' : Heap} (rel : Released h h₁ L b pre lo hi post e₀ e e₁)
    (wf : h.WellFormed L) (around : Around L.blocks b pre lo hi post) {pa : Bool}
    (hole : Hole h h₃ pre [merged lo b hi] post e₀.addr e₁.addr)
    (block : h₃.BlockAt e₀ (merged lo b hi)) (hole' : Hole h h' pre [merged lo b hi] post e₀.addr e₁.addr)
    (header : h'.header e₁.addr = pack (nextSize post) false pa true)
    (outside : ∀ a, (a < e₁.addr ∨ e₁.addr + 8 ≤ a) → h'.mem a = h₃.mem a)
    (nonempty : lo ≠ [] ∨ hi ≠ []) (notMin : (merged lo b hi).size ≠ minBlockSize)
    (status : pa = if post = [] then (L.freed b pre lo hi post).epiAlloc else false) :
    FreedInside h { h' with heapEnd := freedEnd h.heapEnd lo b hi } L b pre lo hi post := by
  obtain ⟨first, last⟩ := rel.merged_range
  have mid : h₃.Tagged e₀ [merged lo b hi] (merged lo b hi).edge := ⟨block, rfl⟩
  have block' : h'.BlockAt e₀ (merged lo b hi) := (mid.frame hole.spaced (by simp) fun a _ lt _ =>
    outside a (Or.inl (lt_of_lt_of_eq lt last))).1
  apply rel.freed wf around hole' block'
  rw [header, status]
  by_cases isLast : post = []
  · have cleared : (L.freed b pre lo hi post).epiMin = false := by
      rcases nonempty with nonempty | nonempty <;> simp [Layout.freed, isLast, nonempty]
    simp [isLast, ← cleared]
  · simp [isLast, notMin]

/-- Two blocks and more have not minimum size. -/
theorem merged_notMin (rel : Released h h₁ L b pre lo hi post e₀ e e₁)
    (nonempty : lo ≠ [] ∨ hi ≠ []) : (merged lo b hi).size ≠ minBlockSize := by
  have wide := rel.legal.le_size
  have low : lo ≠ [] → 0 < (lo.map Block.size).sum := by
    intro nonempty
    obtain ⟨x, rest, rfl⟩ := List.exists_cons_of_ne_nil nonempty
    have := rel.low.1.size_pos
    simp only [List.map_cons, List.sum_cons]
    omega
  have high : hi ≠ [] → 0 < (hi.map Block.size).sum := by
    intro nonempty
    obtain ⟨n, rest, rfl⟩ := List.exists_cons_of_ne_nil nonempty
    have := rel.high.1.size_pos
    simp only [List.map_cons, List.sum_cons]
    omega
  simp only [merged, List.map_append, List.map_cons, List.sum_append, List.sum_cons, minBlockSize,
    dsize, wsize]
  rcases nonempty with nonempty | nonempty
  · have := low nonempty
    omega
  · have := high nonempty
    omega

/-- The end of the cases in which the next block is merged. -/
theorem finish_next {c : Nat → Prop} [DecidablePred c]
    (rel : Released h h₁ L b pre lo [n] post e₀ e e₁) (wf : h.WellFormed L)
    (around : Around L.blocks b pre lo [n] post)
    (hole : Hole h h₃ pre [merged lo b [n]] post e₀.addr e₁.addr)
    (block : h₃.BlockAt e₀ (merged lo b [n])) (header : h₃.header e₁.addr = h₁.header e₁.addr)
    (follows : c h.heapEnd ↔ n.addr = h.heapEnd ∨ (lo ≠ [] ∧ b.addr = h.heapEnd)) :
    FreedInside h
      (let h₄ := if h₁.header e₁.addr ≠ 0x1 ∧ h₃.getPrevMin e₁.addr then
        h₃.setWord e₁.addr (clearMask (h₃.header e₁.addr) prevMinMask) else h₃
      if c h₄.heapEnd then { h₄ with heapEnd := (merged lo b [n]).addr } else h₄)
      L b pre lo [n] post := by
  have isSize := rel.after.nextSize_isSize wf.brk_le
  have header₁ := rel.nnext_header around
  obtain ⟨h₄, cleared, hole₄, header₄, outside⟩ := hole.clearPrevMin
    (by have := rel.merged_range; omega) (header.trans header₁) isSize
    (prevMin_idle isSize header₁ (header.trans header₁))
  have done := rel.finish wf around hole block hole₄ header₄ outside (Or.inr (by simp))
    (rel.merged_notMin (Or.inr (by simp))) (by by_cases isLast : post = [] <;> simp [isLast, Layout.freed])
  dsimp only
  rw [cleared, hole₄.heapEnd]
  by_cases follow : c h.heapEnd
  · rw [if_pos follow]
    rwa [freedEnd, if_pos (follows.mp follow)] at done
  · rw [if_neg follow]
    rw [freedEnd, if_neg (mt follows.mpr follow), ← hole₄.heapEnd] at done
    exact done

/-- What `coalesce_block` reads of a free next block. -/
theorem next_reads (rel : Released h h₁ L b pre lo [n] post e₀ e e₁) (wf : h.WellFormed L)
    (around : Around L.blocks b pre lo [n] post) :
    n.alloc = false ∧ h₁.findNext b.addr = n.addr ∧ h₁.getAlloc n.addr = false ∧
      h₁.getSize n.addr = n.size ∧ h₁.findNext n.addr = e₁.addr ∧ n.addr = b.addr + b.size ∧
      e₁.addr = n.addr + n.size := by
  have place : n.addr = b.addr + b.size := rel.high.1.addr
  have top : e₁.addr = n.addr + n.size := by
    obtain ⟨-, rfl⟩ := rel.high
    rfl
  have size : h₁.getSize n.addr = n.size := place ▸ rel.next_getSize wf
  refine ⟨by simpa using around.high, place ▸ rel.findNext, place ▸ rel.next_getAlloc wf around, size,
    ?_, place, top⟩
  rw [Heap.findNext, size, top]

/-- Case 2. -/
theorem coalesce_next (rel : Released h h₁ L b pre [] [n] post e₀ e e₁)
    (wf : h.WellFormed L) (around : Around L.blocks b pre [] [n] post) :
    ∃ h', h₁.coalesceBlock b.addr = some (b.addr, h') ∧ FreedInside h h' L b pre [] [n] post := by
  obtain ⟨free, next, nextFree, nextSize, nnext, place, top⟩ := rel.next_reads wf around
  have prevAlloc := rel.getPrevAlloc around
  have block := rel.block
  have isSize := rel.legal.isSize
  have legal := rel.merged_legal wf
  obtain ⟨first, last⟩ := rel.merged_range
  have blockSize : h₁.getSize b.addr = b.size := block.getSize isSize
  have size : wadd (h₁.getSize b.addr) (h₁.getSize n.addr) = (merged [] b [n]).size := by
    have shape : (merged [] b [n]).size = b.size + n.size := by simp [merged]
    have := legal.fits
    rw [blockSize, nextSize, wadd_of_lt (by omega), shape]
  obtain ⟨h₂, popped, hole₂, linkless⟩ := rel.hole.pop free nextSize
  have keptB : h₂.header b.addr = h₁.header b.addr :=
    rel.hole.header_kept linkless first.ge (by omega) fun c member => by
      obtain rfl := List.mem_singleton.mp member
      exact Or.inl (by omega)
  have keptN : h₂.header e₁.addr = h₁.header e₁.addr :=
    rel.hole.header_kept linkless (by omega) le_rfl fun c member => by
      obtain rfl := List.mem_singleton.mp member
      exact Or.inr top.ge
  obtain rfl := rel.low
  have prevMin : h₂.getPrevMin b.addr = e₀.prevMin :=
    (congrArg extractPrevMin keptB).trans (block.getPrevMin isSize)
  have prevAlloc₂ : h₂.getPrevAlloc b.addr = e₀.prevAlloc :=
    (congrArg extractPrevAlloc keptB).trans (block.getPrevAlloc isSize)
  obtain ⟨h₃, filled, hole₃, block₃, keptN₃, -⟩ := hole₂.fill (e := e₀) legal first.ge last.le rfl first
  have filled : (h₂.writeBlock b.addr (wadd (h₁.getSize b.addr) (h₁.getSize n.addr))
      (h₂.getPrevMin b.addr) (h₂.getPrevAlloc b.addr) false).push b.addr = h₃ := by
    rw [size, prevMin, prevAlloc₂]
    exact filled
  have step := coalesceBlock_next (rel.notFirst wf) prevAlloc next nextFree popped
  rw [filled, nnext] at step
  exact ⟨_, step, rel.finish_next (c := fun heapEnd => n.addr = heapEnd) wf around hole₃ block₃
    (keptN₃.trans keptN) (by simp)⟩

/-- What `coalesce_block` reads of a free previous block, two words back if it has minimum
size and by its footer otherwise. -/
theorem prev_reads (rel : Released h h₁ L b pre [x] hi post e₀ e e₁)
    (around : Around L.blocks b pre [x] hi post) :
    x.alloc = false ∧ h₁.prevBlockOf b.addr (h₁.getPrevMin b.addr) = x.addr ∧ x.addr ≠ 0 ∧
      h₁.BlockAt e₀ x ∧ x.Legal ∧ x.addr + x.size = b.addr ∧ x.addr = e₀.addr := by
  have free : x.alloc = false := by simpa using around.low
  have legal : x.Legal := rel.hole.spaced.legal x (by simp)
  obtain ⟨blockAt, rfl⟩ := rel.low
  have place : x.addr + x.size = b.addr := rel.block.addr.symm
  have flag : h₁.getPrevMin b.addr = decide (x.size = minBlockSize) :=
    rel.block.getPrevMin rel.legal.isSize
  have wide := legal.le_size
  refine ⟨free, ?_, legal.pos.ne', blockAt, legal, place, blockAt.addr⟩
  rw [flag, prevBlockOf]
  by_cases isMin : x.size = minBlockSize
  · rw [if_pos (by simpa using isMin)]
    simp only [minBlockSize, dsize, wsize] at isMin ⊢
    omega
  · have footer : h₁.word (b.addr - wsize) = pack x.size e₀.prevMin e₀.prevAlloc x.alloc := by
      rw [← place, blockAt.footer free isMin, blockAt.header]
    rw [if_neg (by simpa using isMin), findPrev, findPrevFooter, footer, extractSize_pack legal.isSize,
      if_neg legal.size_pos.ne', footerToHeader, footer, extractSize_pack legal.isSize]
    simp only [wsize]
    omega

/-- Case 3. -/
theorem coalesce_prev (rel : Released h h₁ L b pre [x] [] post e₀ e e₁)
    (wf : h.WellFormed L) (around : Around L.blocks b pre [x] [] post) :
    ∃ h', h₁.coalesceBlock b.addr = some (x.addr, h') ∧ FreedInside h h' L b pre [x] [] post := by
  obtain ⟨free, prevBlock, nonnull, blockAt, xLegal, place, start⟩ := rel.prev_reads around
  have prevFree := rel.getPrevAlloc around
  have nextAlloc := rel.next_getAlloc wf around
  have block := rel.block
  have legal := rel.merged_legal wf
  obtain ⟨first, last⟩ := rel.merged_range
  have blockSize : h₁.getSize b.addr = b.size := block.getSize rel.legal.isSize
  have size : wadd (h₁.getSize x.addr) (h₁.getSize b.addr) = (merged [x] b []).size := by
    have shape : (merged [x] b []).size = x.size + b.size := by simp [merged]
    have := rel.legal.fits
    rw [blockSize, blockAt.getSize xLegal.isSize, wadd_of_lt (by omega), shape]
  have top : e₁.addr = b.addr + b.size := by
    obtain rfl := rel.high
    rfl
  have postIsSize := rel.after.nextSize_isSize wf.brk_le
  have header : h₁.header e₁.addr = pack (nextSize post)
      (if post = [] then L.epiMin else b.size = minBlockSize) false true := by
    rw [top, rel.next, List.nil_append, around.postAlloc]
  -- the header after the block is cleared before anything is merged
  obtain ⟨h₂, cleared, hole₂, header₂, outside₂⟩ := rel.hole.clearPrevMin
    (c := h₁.getPrevMin e₁.addr = true) (by omega) header postIsSize (by
      rw [Heap.getPrevMin, header, extractPrevMin_pack postIsSize]
      exact Bool.eq_false_iff.mpr)
  have keptX₂ : h₂.header x.addr = h₁.header x.addr :=
    header_congr fun a _ lt => outside₂ a (Or.inl (by have := xLegal.le_size; omega))
  have xSize : h₂.getSize x.addr = x.size :=
    (congrArg extractSize keptX₂).trans (blockAt.getSize xLegal.isSize)
  obtain ⟨h₃, popped, hole₃, linkless⟩ := hole₂.pop free xSize
  have kept : ∀ p, e₀.addr ≤ p → p ≤ e₁.addr → (p ≤ x.addr ∨ x.addr + x.size ≤ p) →
      h₃.header p = h₂.header p := fun p ge le off =>
    hole₂.header_kept linkless ge le fun c member => by
      obtain rfl := List.mem_singleton.mp member
      exact off
  have keptX := (kept x.addr (by omega) (by omega) (Or.inl le_rfl)).trans keptX₂
  have prevMin : h₃.getPrevMin x.addr = e₀.prevMin :=
    (congrArg extractPrevMin keptX).trans (blockAt.getPrevMin xLegal.isSize)
  have prevAlloc : h₃.getPrevAlloc x.addr = e₀.prevAlloc :=
    (congrArg extractPrevAlloc keptX).trans (blockAt.getPrevAlloc xLegal.isSize)
  obtain ⟨h₄, filled, hole₄, block₄, header₄, -⟩ := hole₃.fill (e := e₀) legal first.ge last.le rfl first
  have filled : (h₃.writeBlock x.addr (wadd (h₁.getSize x.addr) (h₁.getSize b.addr))
      (h₃.getPrevMin x.addr) (h₃.getPrevAlloc x.addr) false).push x.addr = h₄ := by
    rw [size, prevMin, prevAlloc]
    exact filled
  have step := coalesceBlock_prev (rel.notFirst wf) prevFree (rel.findNext.trans top.symm)
    (top.symm ▸ nextAlloc) prevBlock nonnull cleared popped
  rw [filled] at step
  have header₄ := (header₄.trans (kept e₁.addr (by omega) le_rfl (Or.inr (by omega)))).trans header₂
  have done := rel.finish wf around hole₄ block₄ hole₄ header₄ (fun _ _ => rfl) (Or.inl (by simp))
    (rel.merged_notMin (Or.inl (by simp))) (by by_cases isLast : post = [] <;> simp [isLast, Layout.freed])
  have keptEnd : freedEnd h.heapEnd [x] b [] = h₄.heapEnd := hole₄.heapEnd.symm
  rw [keptEnd] at done
  exact ⟨_, step, done⟩

/-- Case 4. -/
theorem coalesce_both (rel : Released h h₁ L b pre [x] [n] post e₀ e e₁)
    (wf : h.WellFormed L) (around : Around L.blocks b pre [x] [n] post) :
    ∃ h', h₁.coalesceBlock b.addr = some (x.addr, h') ∧ FreedInside h h' L b pre [x] [n] post := by
  obtain ⟨xFree, prevBlock, nonnull, blockAt, xLegal, xPlace, start⟩ := rel.prev_reads around
  obtain ⟨nFree, next, nextFree, nextSize, nnext, nPlace, top⟩ := rel.next_reads wf around
  have prevFree := rel.getPrevAlloc around
  have block := rel.block
  have legal := rel.merged_legal wf
  obtain ⟨first, last⟩ := rel.merged_range
  have blockSize : h₁.getSize b.addr = b.size := block.getSize rel.legal.isSize
  have size : wadd (wadd (h₁.getSize x.addr) (h₁.getSize b.addr)) (h₁.getSize n.addr) =
      (merged [x] b [n]).size := by
    have shape : (merged [x] b [n]).size = x.size + (b.size + n.size) := by simp [merged]
    have := legal.fits
    have pair : wadd x.size b.size = x.size + b.size := wadd_of_lt (by omega)
    rw [blockSize, blockAt.getSize xLegal.isSize, nextSize, pair, wadd_of_lt (by omega), shape,
      Nat.add_assoc]
  have xSize : h₁.getSize x.addr = x.size := blockAt.getSize xLegal.isSize
  have wide := rel.legal.le_size
  have xWide := xLegal.le_size
  -- both neighbours are taken out
  obtain ⟨h₂, popped, hole₂, linkless₂⟩ := rel.hole.pop xFree xSize
  have kept₂ : ∀ p, e₀.addr ≤ p → p ≤ e₁.addr → (p ≤ x.addr ∨ (b.addr ≤ p ∧ p ≤ n.addr) ∨ p = e₁.addr) →
      h₂.header p = h₁.header p := fun p ge le off =>
    rel.hole.header_kept linkless₂ ge le fun c member => by
      rcases List.mem_cons.mp member with rfl | inRest
      · omega
      · obtain rfl := List.mem_singleton.mp inRest
        omega
  have nSize : h₂.getSize n.addr = n.size :=
    (congrArg extractSize (kept₂ n.addr (by omega) (by omega) (by omega))).trans nextSize
  obtain ⟨h₃, poppedNext, hole₃, linkless₃⟩ := hole₂.pop nFree nSize
  have kept₃ : ∀ p, e₀.addr ≤ p → p ≤ e₁.addr → (p ≤ n.addr ∨ p = e₁.addr) →
      h₃.header p = h₂.header p := fun p ge le off =>
    hole₂.header_kept linkless₃ ge le fun c member => by
      obtain rfl := List.mem_singleton.mp member
      omega
  have keptX := (kept₃ x.addr (by omega) (by omega) (by omega)).trans
    (kept₂ x.addr (by omega) (by omega) (by omega))
  have keptN := (kept₃ e₁.addr (by omega) (by omega) (by omega)).trans
    (kept₂ e₁.addr (by omega) (by omega) (by omega))
  have prevMin : h₃.getPrevMin x.addr = e₀.prevMin :=
    (congrArg extractPrevMin keptX).trans (blockAt.getPrevMin xLegal.isSize)
  have prevAlloc : h₃.getPrevAlloc x.addr = e₀.prevAlloc :=
    (congrArg extractPrevAlloc keptX).trans (blockAt.getPrevAlloc xLegal.isSize)
  obtain ⟨h₄, filled, hole₄, block₄, header₄, -⟩ := hole₃.fill (e := e₀) legal first.ge last.le rfl first
  have filled : (h₃.writeBlock x.addr
      (wadd (wadd (h₁.getSize x.addr) (h₁.getSize b.addr)) (h₁.getSize n.addr))
      (h₃.getPrevMin x.addr) (h₃.getPrevAlloc x.addr) false).push x.addr = h₄ := by
    rw [size, prevMin, prevAlloc]
    exact filled
  have step := coalesceBlock_both (rel.notFirst wf) prevFree next nextFree prevBlock nonnull popped
    poppedNext
  rw [filled, nnext] at step
  exact ⟨_, step, rel.finish_next (c := fun heapEnd => n.addr = heapEnd ∨ b.addr = heapEnd) wf around
    hole₄ block₄ (header₄.trans keptN) (by simp)⟩

end Released

theorem free_inside (wf : h.WellFormed L) (around : Around L.blocks b pre lo hi post)
    (alloc : b.alloc = true) :
    ∃ h', h.free (headerToPayload b.addr) = some h' ∧ FreedInside h h' L b pre lo hi post := by
  obtain ⟨e₀, e, e₁, rel⟩ := release_spec wf around alloc
  have back : payloadToHeader (headerToPayload b.addr) = b.addr := by
    simp [payloadToHeader, headerToPayload]
  have coalesced : ∃ block h', (h.release b.addr).coalesceBlock b.addr = some (block, h') ∧
      FreedInside h h' L b pre lo hi post := by
    rcases around.low with rfl | ⟨x, rfl, -⟩ <;> rcases around.high with rfl | ⟨n, rfl, -⟩
    · exact ⟨_, rel.coalesce_alone wf around⟩
    · exact ⟨_, rel.coalesce_next wf around⟩
    · exact ⟨_, rel.coalesce_prev wf around⟩
    · exact ⟨_, rel.coalesce_both wf around⟩
  obtain ⟨block, h', step, freed⟩ := coalesced
  refine ⟨h', ?_, freed⟩
  rw [free_eq (by simp [headerToPayload, wsize]), back, step]
  rfl

/-- **`free` of an allocated block.** -/
theorem free_spec (wf : h.WellFormed L) (around : Around L.blocks b pre lo hi post)
    (alloc : b.alloc = true) :
    ∃ h', h.free (headerToPayload b.addr) = some h' ∧ Freed h h' L b pre lo hi post := by
  obtain ⟨h', step, freed⟩ := free_inside wf around alloc
  exact ⟨h', step, freed.toFreed⟩

/-- **`free` keeps a heap well formed**: the block is merged with exactly its free
neighbours, and every other allocated block keeps its place, size and bytes. -/
theorem free_wellFormed {p : Nat} (wf : h.WellFormed L) (live : L.Live p) :
    ∃ b pre lo hi post h', p = headerToPayload b.addr ∧ Around L.blocks b pre lo hi post ∧
      h.free p = some h' ∧ h'.WellFormed (L.freed b pre lo hi post) ∧
      ∀ c ∈ L.blocks, c.alloc = true → c ≠ b → c ∈ (L.freed b pre lo hi post).blocks ∧
        ∀ a, c.addr + 8 ≤ a → a < c.addr + c.size → h'.mem a = h.mem a := by
  obtain ⟨b, member, alloc, rfl⟩ := live
  obtain ⟨pre, lo, hi, post, around⟩ := exists_around wf.coalesced member
  obtain ⟨h', step, freed⟩ := free_spec wf around alloc
  refine ⟨b, pre, lo, hi, post, h', rfl, around, step, freed.wellFormed, fun c memC allocC ne => ?_⟩
  exact ⟨around.mem_freed memC allocC ne,
    freed.payload c (around.outer_of_alloc memC allocC ne) allocC⟩

theorem free_wellFormed_twoBlocks :
    ∃ b pre lo hi post h', 16 = headerToPayload b.addr ∧ Around twoBlocksLayout.blocks b pre lo hi post ∧
      twoBlocks.free 16 = some h' ∧ h'.WellFormed (twoBlocksLayout.freed b pre lo hi post) ∧
      ∀ c ∈ twoBlocksLayout.blocks, c.alloc = true → c ≠ b →
        c ∈ (twoBlocksLayout.freed b pre lo hi post).blocks ∧
        ∀ a, c.addr + 8 ≤ a → a < c.addr + c.size → h'.mem a = twoBlocks.mem a :=
  free_wellFormed twoBlocks_sound.toWellFormed ⟨⟨8, 32, true⟩, by decide, rfl, rfl⟩

end Heap

end SystemsLabs.Malloc
