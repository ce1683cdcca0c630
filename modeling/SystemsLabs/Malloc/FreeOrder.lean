/-
# SystemsLabs.Malloc.FreeOrder -- the partition of the heap does not depend on the order of frees

`Heap.partition` reads the blocks of a heap as a walk over its headers does.  What
`free` does to the blocks is to mark one of them free and to coalesce
(`Around.freed_blocks`), and coalescing in between does not matter, so after any number
of frees the blocks are the coalescing of the original ones with all of them marked
(`freeAll_spec`), in whatever order they were freed.
-/
import SystemsLabs.Malloc.Free
import SystemsLabs.Theory.Coalescing

namespace SystemsLabs.Malloc

open SystemsLabs.Theory.ByteMemory SystemsLabs.Theory.Coalescing

set_option autoImplicit false

/-! ## Marking and coalescing blocks -/

namespace Block

def free (b : Block) : Bool := !b.alloc

/-- The block in place of two adjacent ones. -/
def join (b c : Block) : Block := { b with size := b.size + c.size }

theorem joins : Joins Block.free Block.join where
  free_join _ _ freeB _ := freeB
  assoc b c d := by simp [join, Nat.add_assoc]

/-- The block after the payload pointers `ps` were freed. -/
def markFree (ps : List Nat) (b : Block) : Block :=
  if headerToPayload b.addr ∈ ps then { b with alloc := false } else b

variable {b : Block} {p : Nat} {ps qs : List Nat}

theorem markFree_of_free (free : b.free = true) : b.markFree ps = b := by
  cases b with
  | mk addr size alloc =>
      obtain rfl : alloc = false := by simpa [Block.free] using free
      unfold markFree
      split <;> rfl

theorem markFree_of_notMem (off : headerToPayload b.addr ∉ ps) : b.markFree ps = b := if_neg off

theorem markFree_markFree : (b.markFree [p]).markFree ps = b.markFree (p :: ps) := by
  unfold markFree
  by_cases here : headerToPayload b.addr = p
  · simp [here]
  · by_cases there : headerToPayload b.addr ∈ ps <;> simp [here, there]

theorem markFree_perm (perm : ps.Perm qs) : markFree ps = markFree qs := by
  funext b
  simp only [markFree, perm.mem_iff]

end Block

/-- The free neighbours of a block that was marked free are joined with it. -/
theorem Around.coalesce_middle {bs pre lo hi post : List Block} {b : Block}
    (around : Around bs b pre lo hi post) (tail : Separated Block.free (hi ++ post)) :
    coalesce Block.free Block.join (lo ++ { b with alloc := false } :: (hi ++ post)) =
      merged lo b hi :: post := by
  have upper : coalesce Block.free Block.join ({ b with alloc := false } :: (hi ++ post)) =
      merged [] b hi :: post := by
    rw [coalesce_cons, coalesce_eq_self tail]
    rcases around.high with rfl | ⟨n, rfl, free⟩
    · have alloc := around.postAlloc
      cases post with
      | nil => simp [absorb, merged]
      | cons c post =>
          have used : c.alloc = true := alloc
          simp [absorb, Block.free, used, merged]
    · rw [List.singleton_append, absorb_free rfl (by simp [Block.free, free])]
      simp [Block.join, merged]
  rcases around.low with rfl | ⟨x, rfl, free⟩
  · exact upper
  · rw [List.singleton_append, coalesce_cons, upper, absorb_free (by simp [Block.free, free]) rfl]
    obtain ⟨addr, size, alloc⟩ := x
    obtain rfl : alloc = false := free
    simp [Block.join, merged]

/-- What `free` does to the blocks: one is marked, and the row coalesced. -/
theorem Around.freed_blocks {L : Layout} {b : Block} {pre lo hi post : List Block}
    (around : Around L.blocks b pre lo hi post) (spaced : Spaced L.blocks)
    (chain : L.blocks.IsChain fun b c => b.alloc = true ∨ c.alloc = true) :
    (L.freed b pre lo hi post).blocks =
      coalesce Block.free Block.join (L.blocks.map (Block.markFree [headerToPayload b.addr])) := by
  have kept : ∀ cs : List Block, (∀ c ∈ cs, c ∈ L.blocks ∧ c ≠ b) →
      cs.map (Block.markFree [headerToPayload b.addr]) = cs := by
    intro cs off
    refine (List.map_congr_left fun c member => ?_).trans (List.map_id _)
    refine Block.markFree_of_notMem fun same => (off c member).2 ?_
    apply spaced.addr_injective around.mem (off c member).1
    simpa [headerToPayload] using same
  have marked : b.markFree [headerToPayload b.addr] = { b with alloc := false } :=
    if_pos (List.mem_singleton.mpr rfl)
  have separated : Separated Block.free L.blocks := chain.imp fun c d used => by
    simpa [Block.free] using used
  have row : L.blocks = (pre ++ lo) ++ b :: (hi ++ post) := by simp [around.split]
  have others : ∀ c ∈ (pre ++ lo) ++ (hi ++ post), c ∈ L.blocks ∧ c ≠ b := by
    intro c member
    rw [row] at spaced ⊢
    refine ⟨(List.sublist_append_right [b] _ |>.append_left _).subset member, ?_⟩
    rintro rfl
    have := (spaced.legal c (by simp)).size_pos
    rcases List.mem_append.mp member with inLow | inHigh
    · have := spaced.before c inLow
      omega
    · have := spaced.after c inHigh
      omega
  rw [row] at separated
  obtain ⟨left, right, -⟩ := List.isChain_append.mp separated
  rw [row, List.map_append, List.map_cons, marked, kept (pre ++ lo) fun c m =>
    others c (List.mem_append_left _ m), kept (hi ++ post) fun c m => others c (List.mem_append_right _ m),
    List.append_assoc, coalesce_append (List.isChain_append.mp left).1 fun c last => by
      simpa [Block.free] using around.preAlloc c last, around.coalesce_middle (List.IsChain.tail right)]
  simp [Layout.freed]

/-! ## Walking the heap -/

/-- What the header of a block says. -/
structure BlockInfo where
  addr : Nat
  size : Nat
  alloc : Bool
  prevAlloc : Bool
  prevMin : Bool
deriving DecidableEq, Repr

/-- A row of blocks after an edge, with the flags of their headers. -/
def infos : Edge → List Block → List BlockInfo
  | _, [] => []
  | e, b :: bs => ⟨b.addr, b.size, b.alloc, e.prevAlloc, e.prevMin⟩ :: infos b.edge bs

namespace Heap

variable {h h' : Heap} {L L' : Layout} {e e' : Edge} {bs : List Block} {pm pa : Bool}

/-- The loop of `mm_checkheap` over the blocks from `block` on. -/
def walk (h : Heap) : Nat → Nat → List BlockInfo
  | 0, _ => []
  | fuel + 1, block =>
      if h.getSize block > 0 then
        ⟨block, h.getSize block, h.getAlloc block, h.getPrevAlloc block, h.getPrevMin block⟩ ::
          h.walk fuel (h.findNext block)
      else []

/-- The blocks of the heap.  There are fewer blocks than bytes. -/
def partition (h : Heap) : List BlockInfo := h.walk h.brk h.heapStart

theorem Tagged.length_le (row : h.Tagged e bs e') : e.addr + bs.length ≤ e'.addr := by
  induction bs generalizing e with
  | nil =>
      obtain rfl := row
      simp
  | cons b bs ih =>
      obtain ⟨blockAt, rest⟩ := row
      have := ih rest
      have := blockAt.addr_edge
      have := blockAt.size_pos
      simp only [List.length_cons]
      omega

theorem walk_eq {fuel : Nat} (closed : h.Closed e bs pm pa) (fits : h.brk ≤ wordMod)
    (enough : bs.length < fuel) : h.walk fuel e.addr = infos e bs := by
  induction bs generalizing e fuel with
  | nil =>
      obtain ⟨fuel, rfl⟩ : ∃ n, fuel = n + 1 := ⟨fuel - 1, by omega⟩
      have size : h.getSize e.addr = 0 := by
        rw [getSize, closed.header, extractSize_pack (closed.nextSize_isSize fits)]
        rfl
      rw [walk, size]
      rfl
  | cons b bs ih =>
      obtain ⟨fuel, rfl⟩ : ∃ n, fuel = n + 1 := ⟨fuel - 1, by omega⟩
      have isSize : IsSize b.size := closed.nextSize_isSize fits
      obtain ⟨blockAt, rest⟩ := closed_cons.mp closed
      have next : h.findNext b.addr = b.edge.addr := by
        rw [findNext, blockAt.getSize isSize]
        rfl
      rw [← blockAt.addr, walk, if_pos (blockAt.getSize isSize ▸ blockAt.size_pos), next,
        ih rest (by simpa using enough), blockAt.getSize isSize, blockAt.getAlloc isSize,
        blockAt.getPrevAlloc isSize, blockAt.getPrevMin isSize]
      rfl

/-- The walk finds the blocks of the layout. -/
theorem WellFormed.partition_eq (wf : h.WellFormed L) :
    h.partition = infos (h.startEdge L) L.blocks := by
  apply walk_eq wf.closed wf.brk_le
  obtain ⟨e', row, top, -⟩ := wf.closed
  have := row.length_le
  simp only [wsize] at top
  omega

/-! ## Freeing several blocks -/

/-- Calls of `free`, one after the other. -/
def freeAll (h : Heap) : List Nat → Option Heap
  | [] => some h
  | p :: ps => (h.free p).bind fun h => h.freeAll ps

/-- After any number of frees the blocks are the original ones, with the freed ones
marked, coalesced. -/
theorem freeAll_spec {ps : List Nat} (wf : h.WellFormed L) (distinct : ps.Nodup)
    (live : ∀ p ∈ ps, L.Live p) :
    ∃ h' L', h.freeAll ps = some h' ∧ h'.WellFormed L' ∧ L'.firstMin = L.firstMin ∧
      L'.blocks = coalesce Block.free Block.join (L.blocks.map (Block.markFree ps)) ∧
      h'.heapStart = h.heapStart ∧ h'.brk = h.brk := by
  induction ps generalizing h L with
  | nil =>
      have same : L.blocks.map (Block.markFree []) = L.blocks :=
        (List.map_congr_left fun b _ => Block.markFree_of_notMem (List.not_mem_nil)).trans (List.map_id _)
      have separated : Separated Block.free L.blocks := wf.coalesced.imp fun c d used => by
        simpa [Block.free] using used
      exact ⟨h, L, rfl, wf, rfl, by rw [same, coalesce_eq_self separated], rfl, rfl⟩
  | cons p ps ih =>
      obtain ⟨off, rest⟩ := List.nodup_cons.mp distinct
      obtain ⟨b, member, alloc, rfl⟩ := live p (List.mem_cons_self ..)
      obtain ⟨pre, lo, hi, post, around⟩ := exists_around wf.coalesced member
      obtain ⟨h₁, freed, done⟩ := free_spec wf around alloc
      have stillLive : ∀ q ∈ ps, (L.freed b pre lo hi post).Live q := fun q inRest =>
        around.live_freed (live q (List.mem_cons_of_mem _ inRest)) (by
          rintro rfl
          exact off inRest)
      obtain ⟨h₂, L₂, freedAll, wf₂, firstMin, blocks, start, brk⟩ := ih done.wellFormed rest stillLive
      have step : h.freeAll (headerToPayload b.addr :: ps) = some h₂ := by
        rw [freeAll, freed, Option.bind_some, freedAll]
      have marks : Block.markFree ps ∘ Block.markFree [headerToPayload b.addr] =
          Block.markFree (headerToPayload b.addr :: ps) := funext fun _ => Block.markFree_markFree
      refine ⟨h₂, L₂, step, wf₂, firstMin, ?_, start.trans done.heapStart, brk.trans done.brk⟩
      rw [blocks, around.freed_blocks wf.spaced wf.coalesced,
        coalesce_map_coalesce Block.joins fun c free => Block.markFree_of_free free, List.map_map, marks]

/-- A heap of one free block. -/
theorem WellFormed.single {m : Block} (wf : h.WellFormed L) (blocks : L.blocks = [m])
    (free : m.free = true) :
    h.partition = [⟨h.heapStart, m.size, false, true, L.firstMin⟩] ∧
      h.heapStart + m.size + wsize = h.brk ∧
      ∃ bin, h.Linked bin [h.heapStart] ∧ ∀ other, other ≠ bin → h.Linked other [] := by
  have alloc : m.alloc = false := by simpa [Block.free] using free
  have partition := wf.partition_eq
  obtain ⟨e', row, top, -⟩ := wf.closed
  obtain ⟨lists, index⟩ := wf.indexed
  rw [blocks] at row index partition
  obtain ⟨blockAt, rfl⟩ := row
  have start : m.addr = h.heapStart := blockAt.addr
  refine ⟨?_, ?_, m.bin, ?_, fun other ne => ?_⟩
  · rw [partition, infos, infos, start, alloc]
    rfl
  · rw [← start]
    exact top
  · have holds := index.holds m.bin
    rw [freeIn_cons_bin alloc] at holds
    rw [← start, ← List.perm_singleton.mp holds]
    exact index.linked m.bin
  · have holds := index.holds other
    rw [freeIn_cons_ne ne] at holds
    rw [← List.perm_nil.mp holds]
    exact index.linked other

/-- **The order of frees does not matter.**  Freeing every live block leaves one free block. -/
theorem freeAll_order {ps qs : List Nat} (wf : h.WellFormed L) (distinct : ps.Nodup)
    (live : ∀ p ∈ ps, L.Live p) (perm : ps.Perm qs) :
    ∃ h₁ h₂, h.freeAll ps = some h₁ ∧ h.freeAll qs = some h₂ ∧ h₁.partition = h₂.partition ∧
      ((∀ p, L.Live p → p ∈ ps) → L.blocks ≠ [] →
        ∃ size, h₁.partition = [⟨h.heapStart, size, false, true, L.firstMin⟩] ∧
          h.heapStart + size + wsize = h.brk ∧
          ∃ bin, h₁.Linked bin [h.heapStart] ∧ ∀ other, other ≠ bin → h₁.Linked other []) := by
  obtain ⟨h₁, L₁, freed₁, wf₁, first₁, blocks₁, start₁, brk₁⟩ := freeAll_spec wf distinct live
  obtain ⟨h₂, L₂, freed₂, wf₂, first₂, blocks₂, start₂, brk₂⟩ := freeAll_spec wf
    (perm.nodup_iff.mp distinct) fun q member => live q (perm.mem_iff.mpr member)
  refine ⟨h₁, h₂, freed₁, freed₂, ?_, fun all nonempty => ?_⟩
  · have edges : h₁.startEdge L₁ = h₂.startEdge L₂ := by
      rw [startEdge, startEdge, start₁, start₂, first₁, first₂]
    rw [wf₁.partition_eq, wf₂.partition_eq, edges, blocks₁, blocks₂, Block.markFree_perm perm]
  · have marked : ∀ c ∈ L.blocks.map (Block.markFree ps), c.free = true := by
      intro c member
      obtain ⟨b, memB, rfl⟩ := List.mem_map.mp member
      cases alloc : b.alloc with
      | true =>
          have freed : headerToPayload b.addr ∈ ps := all _ ⟨b, memB, alloc, rfl⟩
          rw [Block.markFree, if_pos freed]
          rfl
      | false =>
          have free : b.free = true := by simp [Block.free, alloc]
          rwa [Block.markFree_of_free free]
    obtain ⟨m, coalesced, free⟩ := coalesce_of_free Block.joins marked (by simpa using nonempty)
    obtain ⟨partition, brk, bin⟩ := wf₁.single (blocks₁.trans coalesced) free
    rw [start₁, first₁] at partition
    rw [start₁, brk₁] at brk
    exact ⟨m.size, partition, brk, start₁ ▸ bin⟩

/-! A heap of three blocks in use, the middle one of minimum size. -/

def threeBlocks : Heap where
  mem :=
    let m := write64 (fun _ => 0) 8 (pack 32 false true true)
    let m := write64 m 40 (pack 16 false true true)
    let m := write64 m 56 (pack 32 true true true)
    write64 m 88 (pack 0 false true true)
  brk := 96
  maxAddr := 96
  heapStart := 8
  heapEnd := 56
  segList := fun _ => 0
  minList := fun _ => 0

def threeBlocksLayout : Layout := ⟨[⟨8, 32, true⟩, ⟨40, 16, true⟩, ⟨56, 32, true⟩], false, false, true⟩

theorem threeBlocks_wellFormed : threeBlocks.WellFormed threeBlocksLayout where
  start_pos := by decide
  closed := by
    refine ⟨⟨88, true, false⟩, ⟨?_, ?_, ?_, rfl⟩, by decide, by decide⟩
    · exact ⟨rfl, by decide, by decide, by decide, by decide⟩
    · exact ⟨rfl, by decide, by decide, by decide, by decide⟩
    · exact ⟨rfl, by decide, by decide, by decide, by decide⟩
  brk_le := by decide
  coalesced := by decide
  indexed := by
    refine ⟨fun _ => [], fun bin => ?_, fun bin => ?_⟩
    · cases bin with
      | seg i => exact ⟨rfl, rfl⟩
      | min j => exact show (0 : Nat) = 0 from rfl
    · show List.Perm [] (freeIn threeBlocksLayout.blocks bin)
      rw [threeBlocksLayout, freeIn_cons_alloc rfl, freeIn_cons_alloc rfl, freeIn_cons_alloc rfl]
      exact List.Perm.refl _

theorem threeBlocks_live : ∀ p ∈ [16, 48, 64], threeBlocksLayout.Live p := by
  intro p member
  simp only [List.mem_cons, List.not_mem_nil, or_false] at member
  obtain rfl | rfl | rfl := member
  · exact ⟨⟨8, 32, true⟩, by decide, rfl, rfl⟩
  · exact ⟨⟨40, 16, true⟩, by decide, rfl, rfl⟩
  · exact ⟨⟨56, 32, true⟩, by decide, rfl, rfl⟩

/-- From the front, and the outer blocks first. -/
theorem freeAll_order_threeBlocks :
    ∃ h₁ h₂, threeBlocks.freeAll [16, 48, 64] = some h₁ ∧ threeBlocks.freeAll [64, 16, 48] = some h₂ ∧
      h₁.partition = h₂.partition ∧
      ((∀ p, threeBlocksLayout.Live p → p ∈ [16, 48, 64]) → threeBlocksLayout.blocks ≠ [] →
        ∃ size, h₁.partition = [⟨threeBlocks.heapStart, size, false, true, threeBlocksLayout.firstMin⟩] ∧
          threeBlocks.heapStart + size + wsize = threeBlocks.brk ∧
          ∃ bin, h₁.Linked bin [threeBlocks.heapStart] ∧ ∀ other, other ≠ bin → h₁.Linked other []) :=
  freeAll_order threeBlocks_wellFormed (by decide) threeBlocks_live (by decide)

end Heap

end SystemsLabs.Malloc
