/-
# SystemsLabs.Malloc.Layout -- the well-formed heap

`Tagged h e bs e'` reads the blocks `bs` off the headers of `h` between two edges: the
blocks tile the bytes from `e` to `e'`, the flags of each header describe the block
before it, and every free block larger than the minimum repeats its header in its
last word.  `Closed` ends the row of blocks at the epilogue.  `WellFormed` adds that
no two neighbours are free and that the free lists index exactly the free blocks;
`Sound` adds what `malloc` relies on and `free` does not: `heap_end` is the last
block and the epilogue's flags describe it.

The last section is the frame of an operation in progress.  A `Hole` is a range of
bytes whose blocks are being rewritten; everything outside it keeps its value, the
link words of free blocks excepted.
-/
import Mathlib.Data.List.Chain
import SystemsLabs.Malloc.Blocks

namespace SystemsLabs.Malloc

open SystemsLabs.Theory.ByteMemory

set_option autoImplicit false

/-- The boundary before a header: its address, and what its flags say of the block
that ends there. -/
structure Edge where
  addr : Nat
  prevAlloc : Bool
  prevMin : Bool
deriving DecidableEq, Repr

/-- The boundary after a block. -/
def Block.edge (b : Block) : Edge := ⟨b.addr + b.size, b.alloc, b.size = minBlockSize⟩

/-- What a heap says beyond its bytes: the blocks in order, the `prev_min` flag of the
first header, which describes no block, and the two flags of the epilogue. -/
structure Layout where
  blocks : List Block
  firstMin : Bool
  epiMin : Bool
  epiAlloc : Bool

/-- Size of the header after an edge; the epilogue has size 0. -/
def nextSize : List Block → Nat
  | [] => 0
  | b :: _ => b.size

/-- Status of the header after an edge; the epilogue counts as allocated. -/
def nextAlloc : List Block → Bool
  | [] => true
  | b :: _ => b.alloc

/-- A pointer to the payload of an allocated block. -/
def Layout.Live (L : Layout) (p : Nat) : Prop :=
  ∃ b ∈ L.blocks, b.alloc = true ∧ p = headerToPayload b.addr

namespace Heap

/-- The header and footer of `b`, after the edge `e`. -/
structure BlockAt (h : Heap) (e : Edge) (b : Block) : Prop where
  addr : b.addr = e.addr
  size_pos : 0 < b.size
  aligned : b.size % 16 = 0
  header : h.header b.addr = pack b.size e.prevMin e.prevAlloc b.alloc
  footer : b.alloc = false → b.size ≠ minBlockSize →
    h.word (b.addr + b.size - wsize) = h.header b.addr

/-- The blocks `bs` fill the bytes from edge `e` to edge `e'`. -/
def Tagged (h : Heap) : Edge → List Block → Edge → Prop
  | e, [], e' => e = e'
  | e, b :: bs, e' => h.BlockAt e b ∧ h.Tagged b.edge bs e'

/-- The blocks `bs` fill the bytes from edge `e` to the epilogue, the last word of the
heap, whose flags are `pm` and `pa`. -/
def Closed (h : Heap) (e : Edge) (bs : List Block) (pm pa : Bool) : Prop :=
  ∃ e', h.Tagged e bs e' ∧ e'.addr + wsize = h.brk ∧ h.header e'.addr = pack 0 pm pa true

/-- The edge before the first block. -/
def startEdge (h : Heap) (L : Layout) : Edge := ⟨h.heapStart, true, L.firstMin⟩

/-- A heap in which every call of `free` is right. -/
structure WellFormed (h : Heap) (L : Layout) : Prop where
  start_pos : 0 < h.heapStart
  closed : h.Closed (h.startEdge L) L.blocks L.epiMin L.epiAlloc
  brk_le : h.brk ≤ wordMod
  coalesced : L.blocks.IsChain fun b c => b.alloc = true ∨ c.alloc = true
  indexed : ∃ lists, h.Indexed L.blocks lists

/-- A well-formed heap in which every call of `malloc` is right too. -/
structure Sound (h : Heap) (L : Layout) : Prop extends WellFormed h L where
  start_aligned : h.heapStart % 16 = 8
  maxAddr_le : h.maxAddr ≤ wordMod
  last : ∃ b, L.blocks.getLast? = some b ∧ h.heapEnd = b.addr ∧
    L.epiAlloc = b.alloc ∧ (L.epiMin = true → b.size = minBlockSize)

/-! A heap of two blocks, 32 bytes in use and 32 bytes free. -/

def twoBlocks : Heap where
  mem :=
    let m := write64 (fun _ => 0) 8 (pack 32 false true true)
    let m := write64 m 40 (pack 32 false true false)
    let m := write64 m 64 (pack 32 false true false)
    write64 m 72 (pack 0 false false true)
  brk := 80
  maxAddr := 80
  heapStart := 8
  heapEnd := 40
  segList := fun i => if i.val = 0 then 40 else 0
  minList := fun _ => 0

def twoBlocksLayout : Layout := ⟨[⟨8, 32, true⟩, ⟨40, 32, false⟩], false, false, false⟩

theorem twoBlocks_sound : twoBlocks.Sound twoBlocksLayout where
  start_pos := by decide
  closed := by
    refine ⟨⟨72, false, false⟩, ⟨?_, ?_, rfl⟩, by decide, by decide⟩
    · exact ⟨rfl, by decide, by decide, by decide, by decide⟩
    · exact ⟨rfl, by decide, by decide, by decide, by decide⟩
  brk_le := by decide
  coalesced := by decide
  indexed := by
    refine ⟨fun bin => if bin = .seg 0 then [40] else [], fun bin => ?_, fun bin => ?_⟩
    · cases bin with
      | seg i =>
          by_cases first : i = 0
          · subst first
            exact ⟨⟨rfl, show twoBlocks.next 40 = 0 by decide⟩, rfl,
              show twoBlocks.prev 40 = 0 by decide⟩
          · rw [if_neg (by simpa using first)]
            have root : twoBlocks.segList i = 0 := if_neg (Fin.val_ne_of_ne first)
            exact ⟨root, rfl⟩
      | min j => exact show (0 : Nat) = 0 from rfl
    · have bins : (⟨40, 32, false⟩ : Block).bin = .seg 0 := by decide
      by_cases first : bin = .seg 0
      · subst first
        exact List.Perm.refl _
      · rw [if_neg first]
        show List.Perm [] (freeIn [⟨8, 32, true⟩, ⟨40, 32, false⟩] bin)
        rw [freeIn_cons_alloc rfl, freeIn_cons_ne (bins ▸ first)]
        exact List.Perm.refl _
  start_aligned := by decide
  maxAddr_le := by decide
  last := ⟨⟨40, 32, false⟩, rfl, rfl, rfl, by decide⟩

variable {h h' : Heap} {e e' e₁ e₂ : Edge} {b : Block} {bs cs all pre post : List Block}
variable {pm pa pm' pa' : Bool}

/-! ## Rows of blocks -/

@[simp] theorem tagged_nil : h.Tagged e [] e' ↔ e = e' := Iff.rfl

@[simp] theorem tagged_cons : h.Tagged e (b :: bs) e' ↔ h.BlockAt e b ∧ h.Tagged b.edge bs e' :=
  Iff.rfl

theorem tagged_append :
    h.Tagged e (bs ++ cs) e' ↔ ∃ mid, h.Tagged e bs mid ∧ h.Tagged mid cs e' := by
  induction bs generalizing e with
  | nil => simp
  | cons b bs ih => simp only [List.cons_append, tagged_cons, ih, and_assoc, exists_and_left]

theorem closed_append :
    h.Closed e (bs ++ cs) pm pa ↔ ∃ mid, h.Tagged e bs mid ∧ h.Closed mid cs pm pa := by
  simp only [Closed, tagged_append]
  constructor
  · rintro ⟨e', ⟨mid, left, right⟩, rest⟩
    exact ⟨mid, left, e', right, rest⟩
  · rintro ⟨mid, left, e', right, rest⟩
    exact ⟨e', ⟨mid, left, right⟩, rest⟩

theorem closed_cons :
    h.Closed e (b :: bs) pm pa ↔ h.BlockAt e b ∧ h.Closed b.edge bs pm pa := by
  simp only [Closed, tagged_cons, and_assoc, exists_and_left]

/-- The edge after a row that ends with `b`. -/
theorem Tagged.edge_of_snoc (row : h.Tagged e (bs ++ [b]) e') : e' = b.edge := by
  obtain ⟨mid, -, -, rfl⟩ := tagged_append.mp row
  rfl

theorem BlockAt.addr_edge (blockAt : h.BlockAt e b) : b.edge.addr = e.addr + b.size := by
  rw [Block.edge, blockAt.addr]

/-- Where the blocks of a row lie. -/
theorem Tagged.bounds (row : h.Tagged e bs e') :
    e.addr ≤ e'.addr ∧ (e'.addr - e.addr) % 16 = 0 ∧
      ∀ b ∈ bs, e.addr ≤ b.addr ∧ (b.addr - e.addr) % 16 = 0 ∧ b.addr + b.size ≤ e'.addr ∧
        0 < b.size ∧ b.size % 16 = 0 := by
  induction bs generalizing e with
  | nil =>
      obtain rfl := row
      simp
  | cons b bs ih =>
      obtain ⟨blockAt, rest⟩ := row
      obtain ⟨le, aligned, inside⟩ := ih rest
      have step := blockAt.addr_edge
      have := blockAt.addr
      have := blockAt.size_pos
      have := blockAt.aligned
      refine ⟨by omega, by omega, fun c member => ?_⟩
      rcases List.mem_cons.mp member with rfl | inRest
      · omega
      · obtain ⟨h₁, h₂, h₃, h₄, h₅⟩ := inside c inRest
        omega

/-- A row is as wide as its blocks. -/
theorem Tagged.width (row : h.Tagged e bs e') : e'.addr = e.addr + (bs.map Block.size).sum := by
  induction bs generalizing e with
  | nil =>
      obtain rfl := row
      simp
  | cons b bs ih =>
      obtain ⟨blockAt, rest⟩ := row
      rw [ih rest, blockAt.addr_edge, List.map_cons, List.sum_cons, Nat.add_assoc]

theorem Tagged.spaced (row : h.Tagged e bs e') (pos : 0 < e.addr) (fits : e'.addr < wordMod) :
    Spaced bs where
  legal b member := by
    obtain ⟨lo, -, hi, size_pos, aligned⟩ := row.bounds.2.2 b member
    exact ⟨by omega, size_pos, aligned, by omega⟩
  ordered := by
    induction bs generalizing e with
    | nil => exact List.Pairwise.nil
    | cons b bs ih =>
        obtain ⟨blockAt, rest⟩ := row
        have step := blockAt.addr_edge
        have start := blockAt.addr
        refine List.pairwise_cons.mpr ⟨fun c member => ?_, ih rest (by omega)⟩
        have := (rest.bounds.2.2 c member).1
        omega

theorem WellFormed.spaced {L : Layout} (wf : h.WellFormed L) : Spaced L.blocks := by
  obtain ⟨e', row, top, -⟩ := wf.closed
  have := wf.brk_le
  exact row.spaced wf.start_pos (by simp only [wsize] at top; omega)

/-! ## Headers of a row -/

section Reads

variable (blockAt : h.BlockAt e b) (isSize : IsSize b.size)

include blockAt isSize

theorem BlockAt.getSize : h.getSize b.addr = b.size := by
  rw [Heap.getSize, blockAt.header, extractSize_pack isSize]

theorem BlockAt.getAlloc : h.getAlloc b.addr = b.alloc := by
  rw [Heap.getAlloc, blockAt.header, extractAlloc_pack isSize]

theorem BlockAt.getPrevAlloc : h.getPrevAlloc b.addr = e.prevAlloc := by
  rw [Heap.getPrevAlloc, blockAt.header, extractPrevAlloc_pack isSize]

theorem BlockAt.getPrevMin : h.getPrevMin b.addr = e.prevMin := by
  rw [Heap.getPrevMin, blockAt.header, extractPrevMin_pack isSize]

end Reads

theorem isSize_zero : IsSize 0 := ⟨rfl, wordMod_pos⟩

/-- The header after an edge, be it of a block or of the epilogue. -/
theorem Closed.header (closed : h.Closed e bs pm pa) :
    h.header e.addr = pack (nextSize bs) (if bs = [] then pm else e.prevMin)
      (if bs = [] then pa else e.prevAlloc) (nextAlloc bs) := by
  cases bs with
  | nil =>
      obtain ⟨e', rfl, -, header⟩ := closed
      simpa [nextSize, nextAlloc] using header
  | cons b bs =>
      have blockAt := (closed_cons.mp closed).1
      simpa [nextSize, nextAlloc, blockAt.addr] using blockAt.header

theorem Closed.nextSize_isSize (closed : h.Closed e bs pm pa) (fits : h.brk ≤ wordMod) :
    IsSize (nextSize bs) := by
  obtain ⟨e', row, top, -⟩ := closed
  cases bs with
  | nil => exact isSize_zero
  | cons b bs =>
      obtain ⟨-, -, -, size_pos, aligned⟩ := row.bounds.2.2 b (List.mem_cons_self ..)
      have := (row.bounds.2.2 b (List.mem_cons_self ..)).2.2.1
      simp only [wsize] at top
      exact ⟨aligned, by simp only [nextSize]; omega⟩

theorem Closed.brk (closed : h.Closed e bs pm pa) : e.addr + wsize ≤ h.brk := by
  obtain ⟨e', row, top, -⟩ := closed
  have := row.bounds.1
  omega

/-! ## Frames -/

/-- A header is read unchanged where its bytes are unchanged. -/
theorem header_congr {p : Nat} (same : ∀ a, p ≤ a → a < p + 8 → h'.mem a = h.mem a) :
    h'.header p = h.header p := word_congr same

/-- A row is read off its headers and the footers of its free blocks. -/
theorem Tagged.congr (row : h.Tagged e bs e')
    (header : ∀ b ∈ bs, h'.header b.addr = h.header b.addr)
    (footer : ∀ b ∈ bs, b.alloc = false → b.size ≠ minBlockSize →
      h'.word (b.addr + b.size - wsize) = h.word (b.addr + b.size - wsize)) : h'.Tagged e bs e' := by
  induction bs generalizing e with
  | nil => exact row
  | cons b bs ih =>
      obtain ⟨blockAt, rest⟩ := row
      have here := header b (List.mem_cons_self ..)
      refine ⟨⟨blockAt.addr, blockAt.size_pos, blockAt.aligned, here.trans blockAt.header, fun free notMin => ?_⟩,
        ih rest (fun c m => header c (List.mem_cons_of_mem _ m))
          fun c m => footer c (List.mem_cons_of_mem _ m)⟩
      rw [here, footer b (List.mem_cons_self ..) free notMin, blockAt.footer free notMin]

/-- A row depends on its own bytes only, and not on link words. -/
theorem Tagged.frame (row : h.Tagged e bs e') (spaced : Spaced all) (sub : ∀ b ∈ bs, b ∈ all)
    (same : ∀ a, e.addr ≤ a → a < e'.addr → ¬ LinkByte all a → h'.mem a = h.mem a) :
    h'.Tagged e bs e' := by
  have place : ∀ b ∈ bs, e.addr ≤ b.addr ∧ b.addr + b.size ≤ e'.addr ∧ 16 ≤ b.size := by
    intro b member
    have := row.bounds.2.2 b member
    omega
  refine row.congr (fun b member => ?_) fun b member free notMin => ?_
  · have := place b member
    exact header_congr fun a lo hi => same a (by omega) (by omega)
      (spaced.header_linkless (sub b member) lo hi)
  · have := place b member
    refine word_congr fun a lo hi => same a ?_ ?_ (spaced.footer_linkless (sub b member) notMin lo ?_)
    all_goals
      simp only [wsize] at lo hi
      omega

/-- A row up to the epilogue, after its first header got new flags: allowed where that
header is the epilogue's or an allocated block's, which has no footer to follow. -/
theorem Closed.retag (closed : h.Closed e bs pm pa) (spaced : Spaced all)
    (sub : ∀ b ∈ bs, b ∈ all) (inHeap : ∀ b ∈ all, b.addr + b.size + wsize ≤ h.brk)
    (alloc : nextAlloc bs = true)
    (same : ∀ a, e.addr + 8 ≤ a → ¬ LinkByte all a → h'.mem a = h.mem a) (brk : h'.brk = h.brk)
    (header : h'.header e.addr = pack (nextSize bs) pm' pa' true) :
    h'.Closed ⟨e.addr, pa', pm'⟩ bs (if bs = [] then pm' else pm) (if bs = [] then pa' else pa) := by
  obtain ⟨e', row, top, epilogue⟩ := closed
  cases bs with
  | nil =>
      obtain rfl := row
      exact ⟨_, rfl, brk ▸ top, by simpa [nextSize] using header⟩
  | cons b bs =>
      obtain ⟨blockAt, rest⟩ := row
      have memB := sub b (List.mem_cons_self ..)
      have wide := (spaced.legal b memB).le_size
      have start := blockAt.addr
      have step := blockAt.addr_edge
      have rest' : h'.Tagged b.edge bs e' :=
        rest.frame spaced (fun c m => sub c (List.mem_cons_of_mem _ m)) fun a lo _ off =>
          same a (by omega) off
      have above := rest.bounds.1
      refine ⟨e', ⟨⟨start, blockAt.size_pos, blockAt.aligned, ?_, fun free => ?_⟩, rest'⟩, brk ▸ top, ?_⟩
      · rw [start, header]
        simp only [nextAlloc] at alloc
        rw [alloc]
        rfl
      · simp only [nextAlloc] at alloc
        rw [alloc] at free
        cases free
      · rw [if_neg (by simp), if_neg (by simp), ← epilogue]
        refine header_congr fun a lo hi => same a (by omega) ?_
        rintro ⟨d, memD, -, inLo, inHi⟩
        have := inHeap d memD
        have := (spaced.legal d memD).linkWidth_le.1
        omega

/-- The payload of an allocated block belongs to the user: writing it leaves the heap as it
is. -/
theorem WellFormed.writePayload {L : Layout} {c : Block} {mem : Mem} (wf : h.WellFormed L)
    (member : c ∈ L.blocks) (alloc : c.alloc = true)
    (same : ∀ a, (a < c.addr + 8 ∨ c.addr + c.size ≤ a) → mem a = h.mem a) :
    WellFormed { h with mem := mem } L where
  start_pos := wf.start_pos
  closed := by
    obtain ⟨e', row, top, epilogue⟩ := wf.closed
    have spaced := wf.spaced
    have inside := (row.bounds.2.2 c member).2.2.1
    refine ⟨e', row.congr (fun b memB => ?_) fun b memB free _ => ?_, top, ?_⟩
    · have := (spaced.legal b memB).le_size
      have := (spaced.legal c member).le_size
      refine header_congr fun a lo hi => same a ?_
      rcases spaced.apart member memB with rfl | apart | apart <;> omega
    · have := (spaced.legal b memB).le_size
      have notC : b ≠ c := by
        rintro rfl
        rw [alloc] at free
        cases free
      have apart := (spaced.apart member memB).resolve_left notC
      refine word_congr fun a lo hi => same a ?_
      simp only [wsize] at lo hi
      omega
    · exact (header_congr fun a lo _ => same a (Or.inr (by omega))).trans epilogue
  brk_le := wf.brk_le
  coalesced := wf.coalesced
  indexed := by
    obtain ⟨lists, index⟩ := wf.indexed
    refine ⟨lists, index.congr (fun bin => by cases bin <;> rfl) fun a inLink => same a ?_⟩
    by_contra inside
    exact wf.spaced.payload_linkless member alloc (by omega) (by omega) inLink

/-- `heap_end` is the business of `malloc` only. -/
theorem WellFormed.setHeapEnd {L : Layout} (wf : h.WellFormed L) (block : Nat) :
    WellFormed { h with heapEnd := block } L where
  start_pos := wf.start_pos
  closed := by
    obtain ⟨e', row, top, epilogue⟩ := wf.closed
    exact ⟨e', row.frame wf.spaced (fun _ member => member) fun _ _ _ _ => rfl, top, epilogue⟩
  brk_le := wf.brk_le
  coalesced := wf.coalesced
  indexed := by
    obtain ⟨lists, index⟩ := wf.indexed
    exact ⟨lists, index.congr (fun bin => by cases bin <;> rfl) fun _ _ => rfl⟩

end Heap

end SystemsLabs.Malloc
