/-
# SystemsLabs.Malloc.Hole -- the frame of a heap operation in progress

`free`, `split_block` and `extend_heap` all rewrite one range of bytes: they take the
free blocks of that range out of the lists, write new headers over them and put the
free ones among the new blocks back.  `Hole h₀ h pre inside post lo hi` is the state
in between.  The blocks `pre` before `lo` and `post` from `hi` on are as in `h₀`, the
free lists of `h` index them and the blocks `inside` that are not yet taken out or
already put back, and only bytes of the range, the header after it and link words of
other free blocks have changed.
-/
import SystemsLabs.Malloc.Layout

namespace SystemsLabs.Malloc

open SystemsLabs.Theory.ByteMemory

set_option autoImplicit false

/-- Blocks before, inside and after the range of bytes from `lo` to `hi`. -/
structure Region (pre inside post : List Block) (lo hi : Nat) : Prop where
  spaced : Spaced (pre ++ inside ++ post)
  below : ∀ c ∈ pre, c.addr + c.size ≤ lo
  within : ∀ c ∈ inside, lo ≤ c.addr ∧ c.addr + c.size ≤ hi
  above : ∀ c ∈ post, hi ≤ c.addr

namespace Region

variable {pre inside inside' post : List Block} {lo hi a : Nat}

theorem outer (region : Region pre inside post lo hi) : Spaced (pre ++ post) :=
  region.spaced.sublist (by
    rw [List.append_assoc]
    exact List.Sublist.append_left (List.sublist_append_right ..) _)

theorem sublist (region : Region pre inside post lo hi) (sub : inside'.Sublist inside) :
    Region pre inside' post lo hi where
  spaced := region.spaced.sublist ((sub.append_left pre).append_right post)
  below := region.below
  within c member := region.within c (sub.subset member)
  above := region.above

/-- Link words of the blocks inside lie inside. -/
theorem linkByte_outer (region : Region pre inside post lo hi) (out : a < lo ∨ hi + 8 ≤ a)
    (off : ¬ LinkByte (pre ++ post) a) : ¬ LinkByte (pre ++ inside ++ post) a := by
  rintro ⟨c, member, free, inLo, inHi⟩
  rw [List.mem_append, List.mem_append] at member
  rcases member with (inPre | inInside) | inPost
  · exact off ⟨c, List.mem_append_left _ inPre, free, inLo, inHi⟩
  · have := (region.spaced.legal c (by simp [inInside])).linkWidth_le.1
    have := region.within c inInside
    omega
  · exact off ⟨c, List.mem_append_right _ inPost, free, inLo, inHi⟩

/-- Bytes of the range, and of the header after it, that are in no block of `inside` after
its header are in no link word. -/
theorem inner_linkless (region : Region pre inside post lo hi) (ge : lo ≤ a) (lt : a < hi + 8)
    (off : ∀ c ∈ inside, a < c.addr + 8 ∨ c.addr + c.size ≤ a) :
    ¬ LinkByte (pre ++ inside ++ post) a := by
  rintro ⟨c, member, -, inLo, inHi⟩
  have := (region.spaced.legal c member).linkWidth_le.1
  rw [List.mem_append, List.mem_append] at member
  rcases member with (inPre | inInside) | inPost
  · have := region.below c inPre
    omega
  · have := off c inInside
    omega
  · have := region.above c inPost
    omega

end Region

namespace Heap

/-- `h` differs from `h₀` by an operation in progress on the bytes from `lo` to `hi`. -/
structure Hole (h₀ h : Heap) (pre inside post : List Block) (lo hi : Nat) : Prop
    extends Region pre inside post lo hi where
  index : ∃ lists, h.Indexed (pre ++ inside ++ post) lists
  mem : ∀ a, (a < lo ∨ hi + 8 ≤ a) → ¬ LinkByte (pre ++ post) a → h.mem a = h₀.mem a
  brk : h.brk = h₀.brk
  maxAddr : h.maxAddr = h₀.maxAddr
  heapStart : h.heapStart = h₀.heapStart
  heapEnd : h.heapEnd = h₀.heapEnd

variable {h₀ h h' : Heap} {pre inside post : List Block} {lo hi p size : Nat}
variable {m x : Block} {e e₁ : Edge} {pm pa pm' pa' al : Bool}

/-! ## Writing a block -/

section WriteBlock

/-- Two heaps with the same lists and globals. -/
structure SameGlobals (h h' : Heap) : Prop where
  brk : h'.brk = h.brk
  maxAddr : h'.maxAddr = h.maxAddr
  heapStart : h'.heapStart = h.heapStart
  heapEnd : h'.heapEnd = h.heapEnd
  binHead : ∀ bin, h'.binHead bin = h.binHead bin

theorem setWord_globals (h : Heap) (p v : Nat) : SameGlobals h (h.setWord p v) :=
  ⟨rfl, rfl, rfl, rfl, fun bin => by cases bin <;> rfl⟩

theorem writeBlock_globals (h : Heap) (p size : Nat) (pm pa al : Bool) :
    SameGlobals h (h.writeBlock p size pm pa al) := by
  unfold writeBlock
  dsimp only
  split
  · exact ⟨rfl, rfl, rfl, rfl, fun bin => by cases bin <;> rfl⟩
  · exact setWord_globals ..

theorem writeBlock_eq (isSize : IsSize size) :
    h.writeBlock p size pm pa al =
      if !al ∧ size ≠ minBlockSize then
        (h.setWord p (pack size pm pa al)).setWord (p + wsize + size - dsize) (pack size pm pa al)
      else h.setWord p (pack size pm pa al) := by
  have header : (h.setWord p (pack size pm pa al)).getSize p = size := by
    rw [getSize, Heap.header, word_setWord (pack_lt isSize ..), extractSize_pack isSize]
  simp only [writeBlock, headerToFooter, header]

theorem writeBlock_outside (isSize : IsSize size) (le : 16 ≤ size) {a : Nat}
    (out : a < p ∨ p + size ≤ a) : (h.writeBlock p size pm pa al).mem a = h.mem a := by
  rw [writeBlock_eq isSize]
  split
  · rw [setWord_outside (by simp only [dsize, wsize]; omega), setWord_outside (by omega)]
  · exact setWord_outside (by omega)

/-- The header of an allocated block is all that is written of it. -/
theorem writeBlock_alloc_outside (isSize : IsSize size) {a : Nat} (out : a < p ∨ p + 8 ≤ a) :
    (h.writeBlock p size pm pa true).mem a = h.mem a := by
  rw [writeBlock_eq isSize, if_neg (by simp)]
  exact setWord_outside out

theorem writeBlock_header (isSize : IsSize size) (le : 16 ≤ size) :
    (h.writeBlock p size pm pa al).header p = pack size pm pa al := by
  rw [writeBlock_eq isSize]
  split
  · rw [Heap.header, word_setWord_ne (by simp only [dsize, wsize]; omega),
      word_setWord (pack_lt isSize ..)]
  · exact word_setWord (pack_lt isSize ..)

/-- A block that was just written is there. -/
theorem writeBlock_blockAt (isSize : IsSize m.size) (le : 16 ≤ m.size) (addr : m.addr = e.addr) :
    (h.writeBlock m.addr m.size e.prevMin e.prevAlloc m.alloc).BlockAt e m where
  addr := addr
  size_pos := by omega
  aligned := isSize.1
  header := writeBlock_header isSize le
  footer free notMin := by
    rw [writeBlock_header isSize le, writeBlock_eq isSize, if_pos ⟨by simp [free], notMin⟩]
    have place : m.addr + m.size - wsize = m.addr + wsize + m.size - dsize := by
      simp only [dsize, wsize]
      omega
    rw [place]
    exact word_setWord (pack_lt isSize ..)

end WriteBlock

/-! ## Steps of an operation -/

/-- An operation starts on any range of bytes. -/
theorem Hole.start (region : Region pre inside post lo hi) {lists : Bin → List Nat}
    (index : h.Indexed (pre ++ inside ++ post) lists) : Hole h h pre inside post lo hi :=
  { region with
    index := ⟨lists, index⟩
    mem := fun _ _ _ => rfl
    brk := rfl
    maxAddr := rfl
    heapStart := rfl
    heapEnd := rfl }

/-- Bytes of the range, and the header after it, may be written, as long as no link word
of a block still inside is hit. -/
theorem Hole.write {wlo whi : Nat} (hole : Hole h₀ h pre inside post lo hi)
    (globals : SameGlobals h h') (mem : ∀ a, (a < wlo ∨ whi ≤ a) → h'.mem a = h.mem a)
    (ge : lo ≤ wlo) (le : whi ≤ hi + 8)
    (off : ∀ c ∈ inside, c.addr + c.size ≤ wlo ∨ whi ≤ c.addr + 8) :
    Hole h₀ h' pre inside post lo hi where
  toRegion := hole.toRegion
  index := by
    obtain ⟨lists, index⟩ := hole.index
    refine ⟨lists, index.congr globals.binHead fun a inLink => mem a ?_⟩
    obtain ⟨c, member, -, inLo, inHi⟩ := inLink
    have := (hole.spaced.legal c member).linkWidth_le.1
    rw [List.mem_append, List.mem_append] at member
    rcases member with (inPre | inInside) | inPost
    · have := hole.below c inPre
      omega
    · have := off c inInside
      omega
    · have := hole.above c inPost
      omega
  mem a out offLink := (mem a (by omega)).trans (hole.mem a out offLink)
  brk := globals.brk.trans hole.brk
  maxAddr := globals.maxAddr.trans hole.maxAddr
  heapStart := globals.heapStart.trans hole.heapStart
  heapEnd := globals.heapEnd.trans hole.heapEnd

/-- A free block inside is taken out of the lists. -/
theorem Hole.pop (hole : Hole h₀ h pre (x :: inside) post lo hi) (free : x.alloc = false)
    (size : h.getSize x.addr = x.size) :
    ∃ h', h.pop x.addr = some h' ∧ Hole h₀ h' pre inside post lo hi ∧
      Linkless h h' (pre ++ (x :: inside) ++ post) := by
  have region := hole.toRegion
  have shape : pre ++ (x :: inside) ++ post = pre ++ x :: (inside ++ post) := by simp
  have shape' : pre ++ inside ++ post = pre ++ (inside ++ post) := by simp
  obtain ⟨lists, index⟩ := hole.index
  obtain ⟨h', lists', popped, index', linkless⟩ :=
    (shape ▸ index).pop (shape ▸ hole.spaced) free size
  rw [← shape] at linkless
  refine ⟨h', popped, ?_, linkless⟩
  exact
    { region.sublist (List.sublist_cons_self ..) with
      index := ⟨lists', shape'.symm ▸ index'⟩
      mem := fun a out off =>
        (linkless.mem a (region.linkByte_outer out off)).trans (hole.mem a out off)
      brk := linkless.brk.trans hole.brk
      maxAddr := linkless.maxAddr.trans hole.maxAddr
      heapStart := linkless.heapStart.trans hole.heapStart
      heapEnd := linkless.heapEnd.trans hole.heapEnd }

/-- A block written into an emptied range is put into the lists. -/
theorem Hole.push (hole : Hole h₀ h pre [] post lo hi) (legal : m.Legal) (ge : lo ≤ m.addr)
    (le : m.addr + m.size ≤ hi) (free : m.alloc = false) (size : h.getSize m.addr = m.size) :
    Hole h₀ (h.push m.addr) pre [m] post lo hi ∧
      Linkless h (h.push m.addr) (pre ++ [m] ++ post) := by
  have spaced : Spaced (pre ++ m :: post) := by
    have outer := hole.outer
    refine ⟨fun c member => ?_, ?_⟩
    · rcases List.mem_append.mp member with inPre | inRest
      · exact outer.legal c (List.mem_append_left _ inPre)
      · rcases List.mem_cons.mp inRest with rfl | inPost
        · exact legal
        · exact outer.legal c (List.mem_append_right _ inPost)
    · have ordered := List.pairwise_append.mp outer.ordered
      refine List.pairwise_append.mpr ⟨ordered.1, List.pairwise_cons.mpr ⟨fun c inPost => ?_,
        ordered.2.1⟩, fun c inPre d member => ?_⟩
      · have := hole.above c inPost
        omega
      · rcases List.mem_cons.mp member with rfl | inPost
        · have := hole.below c inPre
          omega
        · exact ordered.2.2 c inPre d inPost
  obtain ⟨lists, index⟩ := hole.index
  have index : h.Indexed (pre ++ post) lists := by simpa using index
  obtain ⟨lists', index', linkless⟩ := index.push spaced free size
  have shape : pre ++ [m] ++ post = pre ++ m :: post := by simp
  rw [← shape] at index' linkless spaced
  have region : Region pre [m] post lo hi :=
    ⟨spaced, hole.below, fun c member => by
      obtain rfl : c = m := by simpa using member
      exact ⟨ge, le⟩, hole.above⟩
  refine ⟨?_, linkless⟩
  exact
    { region with
      index := ⟨lists', index'⟩
      mem := fun a out off =>
        (linkless.mem a (region.linkByte_outer out off)).trans (hole.mem a out off)
      brk := linkless.brk.trans hole.brk
      maxAddr := linkless.maxAddr.trans hole.maxAddr
      heapStart := linkless.heapStart.trans hole.heapStart
      heapEnd := linkless.heapEnd.trans hole.heapEnd }

/-- A free block is written into an emptied range and put into the lists. -/
theorem Hole.fill (hole : Hole h₀ h pre [] post lo hi) (legal : m.Legal) (ge : lo ≤ m.addr)
    (le : m.addr + m.size ≤ hi) (free : m.alloc = false) (addr : m.addr = e.addr) :
    ∃ h', (h.writeBlock m.addr m.size e.prevMin e.prevAlloc false).push m.addr = h' ∧
      Hole h₀ h' pre [m] post lo hi ∧ h'.BlockAt e m ∧ h'.header hi = h.header hi ∧
      ∀ a, (a < m.addr ∨ m.addr + m.size ≤ a) → ¬ LinkByte (pre ++ [m] ++ post) a →
        h'.mem a = h.mem a := by
  have written := writeBlock_blockAt (h := h) (e := e) legal.isSize legal.le_size addr
  have outside : ∀ a, (a < m.addr ∨ m.addr + m.size ≤ a) →
      (h.writeBlock m.addr m.size e.prevMin e.prevAlloc m.alloc).mem a = h.mem a :=
    fun a out => writeBlock_outside legal.isSize legal.le_size out
  have mid := hole.write (writeBlock_globals ..) outside ge (by omega) (by simp)
  have size := written.getSize legal.isSize
  obtain ⟨hole', linkless⟩ := mid.push legal ge le free size
  rw [free] at hole' linkless outside written
  have kept : ∀ a, (a < m.addr ∨ m.addr + m.size ≤ a) → ¬ LinkByte (pre ++ [m] ++ post) a →
      _ = h.mem a := fun a out off => (linkless.mem a off).trans (outside a out)
  have row := Tagged.frame (tagged_cons.mpr ⟨written, tagged_nil.mpr rfl⟩) hole'.spaced
    (by simp) fun a _ _ off => linkless.mem a off
  refine ⟨_, rfl, hole', row.1, header_congr fun a lower _ => kept a (Or.inr (by omega)) ?_, kept⟩
  refine hole'.inner_linkless (by omega) (by omega) fun c member => Or.inr ?_
  have := hole'.within c member
  omega

/-- Headers in the range, and the one after it, are not link words: an operation on the
lists keeps them. -/
theorem Hole.header_kept {h₁ h₂ : Heap} (hole : Hole h₀ h pre inside post lo hi)
    (linkless : Linkless h₁ h₂ (pre ++ inside ++ post)) (ge : lo ≤ p) (le : p ≤ hi)
    (off : ∀ c ∈ inside, p ≤ c.addr ∨ c.addr + c.size ≤ p) : h₂.header p = h₁.header p :=
  header_congr fun a lower upper => linkless.mem a <|
    hole.inner_linkless (by omega) (by omega) fun c member => by
      have := off c member
      omega

/-- The header after the range is rewritten. -/
theorem Hole.setHeader {v : Nat} (hole : Hole h₀ h pre inside post lo hi) (le : lo ≤ hi)
    (fits : v < wordMod) :
    Hole h₀ (h.setWord hi v) pre inside post lo hi ∧ (h.setWord hi v).header hi = v ∧
      ∀ a, (a < hi ∨ hi + 8 ≤ a) → (h.setWord hi v).mem a = h.mem a :=
  ⟨hole.write (setWord_globals ..) (fun _ out => setWord_outside out) le le_rfl
    fun d member => Or.inl (hole.within d member).2, word_setWord fits, fun _ out => setWord_outside out⟩

/-- The conditional clearing of `prev_min` in the header after the range. -/
theorem Hole.clearPrevMin (hole : Hole h₀ h pre inside post lo hi) (le : lo ≤ hi)
    (header : h.header hi = pack size pm pa al) (isSize : IsSize size) {c : Prop} [Decidable c]
    (idle : ¬ c → pm = false) :
    ∃ h', (if c then h.setWord hi (clearMask (h.header hi) prevMinMask) else h) = h' ∧
      Hole h₀ h' pre inside post lo hi ∧ h'.header hi = pack size false pa al ∧
      ∀ a, (a < hi ∨ hi + 8 ≤ a) → h'.mem a = h.mem a := by
  by_cases clear : c
  · rw [if_pos clear, header, pack_clear_prevMin isSize]
    exact ⟨_, rfl, hole.setHeader le (pack_lt isSize ..)⟩
  · obtain rfl := idle clear
    rw [if_neg clear]
    exact ⟨h, rfl, hole, header, fun _ _ => rfl⟩

/-- The conditional setting of `prev_min` in the header after the range. -/
theorem Hole.setPrevMin (hole : Hole h₀ h pre inside post lo hi) (le : lo ≤ hi)
    (header : h.header hi = pack size pm pa al) (isSize : IsSize size) {c : Prop} [Decidable c] :
    ∃ h', (if c then h.setWord hi (h.header hi ||| prevMinMask) else h) = h' ∧
      Hole h₀ h' pre inside post lo hi ∧ h'.header hi = pack size (decide c || pm) pa al ∧
      ∀ a, (a < hi ∨ hi + 8 ≤ a) → h'.mem a = h.mem a := by
  by_cases set : c
  · simp only [header, pack_set_prevMin isSize, set, decide_true, Bool.true_or]
    exact ⟨_, rfl, hole.setHeader le (pack_lt isSize ..)⟩
  · simp only [set, decide_false, Bool.false_or]
    exact ⟨h, rfl, hole, header, fun _ _ => rfl⟩

/-! ## The blocks around the hole -/

/-- The blocks before the hole are still there. -/
theorem Hole.row_before (hole : Hole h₀ h pre inside post lo hi) (row : h₀.Tagged e pre e₁)
    (edge : e₁.addr ≤ lo) : h.Tagged e pre e₁ :=
  row.frame hole.outer (fun _ member => List.mem_append_left _ member) fun a _ lt off =>
    hole.mem a (Or.inl (by omega)) off

/-- The blocks after the hole are still there, up to the flags of the header after it. -/
theorem Hole.closed_after (hole : Hole h₀ h pre inside post lo hi)
    (closed : h₀.Closed e post pm pa) (edge : e.addr = hi) (le : lo ≤ hi)
    (alloc : nextAlloc post = true)
    (header : h.header hi = pack (nextSize post) pm' pa' true) :
    h.Closed ⟨hi, pa', pm'⟩ post (if post = [] then pm' else pm) (if post = [] then pa' else pa) := by
  have top := closed.brk
  have inHeap : ∀ c ∈ pre ++ post, c.addr + c.size + wsize ≤ h₀.brk := by
    intro c member
    rcases List.mem_append.mp member with inPre | inPost
    · have := hole.below c inPre
      omega
    · obtain ⟨e', row, brk, -⟩ := closed
      have := (row.bounds.2.2 c inPost).2.2.1
      omega
  have := closed.retag hole.outer (fun _ member => List.mem_append_right _ member) inHeap alloc
    (fun a ge off => hole.mem a (Or.inr (by omega)) off) hole.brk (edge ▸ header)
  rwa [edge] at this

/-- New blocks in the hole join the rows before and after it, if the header after them was
given their flags. -/
theorem Hole.rejoin {start e₀ e' : Edge} {row : List Block}
    (hole : Hole h₀ h pre inside post lo hi) (before : h₀.Tagged start pre e₀) (edge : e₀.addr = lo)
    (mid : h.Tagged e₀ row e₁) (edge' : e₁.addr = hi) (after : h₀.Closed e' post pm pa)
    (old : e'.addr = hi) (alloc : nextAlloc post = true)
    (header : h.header hi = pack (nextSize post) (if post = [] then pm' else e₁.prevMin)
      (if post = [] then pa' else e₁.prevAlloc) true) :
    h.Closed start (pre ++ row ++ post) (if post = [] then pm' else pm)
      (if post = [] then pa' else pa) := by
  have le : lo ≤ hi := edge ▸ edge' ▸ mid.bounds.1
  have closed := hole.closed_after after old le alloc header
  refine closed_append.mpr ⟨e₁, tagged_append.mpr ⟨e₀, hole.row_before before edge.le, mid⟩, ?_⟩
  by_cases last : post = []
  · subst last
    obtain ⟨e, row, top, epilogue⟩ := closed
    obtain rfl := row
    refine ⟨e₁, rfl, edge'.symm ▸ top, edge'.symm ▸ ?_⟩
    simpa using epilogue
  · simp only [if_neg last, ← edge'] at closed ⊢
    exact closed

/-- No byte before the first block is written. -/
def KeepsFront (h h' : Heap) : Prop := ∀ a, a < h.heapStart → h'.mem a = h.mem a

theorem KeepsFront.trans (first : KeepsFront h₀ h) (start : h.heapStart = h₀.heapStart)
    (second : KeepsFront h h') : KeepsFront h₀ h' := by
  intro a lt
  exact (second a (by omega)).trans (first a lt)

/-- An operation on blocks writes only where blocks are. -/
theorem Hole.keepsFront (hole : Hole h₀ h pre inside post lo hi) (before : h₀.Tagged e pre e₁)
    (first : e.addr = h₀.heapStart) (edge : e₁.addr = lo) (le : lo ≤ hi) : KeepsFront h₀ h := by
  intro a lt
  have start := before.bounds.1
  refine hole.mem a (Or.inl (by omega)) ?_
  rintro ⟨c, member, -, inLo, -⟩
  rcases List.mem_append.mp member with inPre | inPost
  · have := (before.bounds.2.2 c inPre).1
    omega
  · have := hole.above c inPost
    omega

/-- The bytes of every other allocated block keep their values. -/
theorem Hole.payload (hole : Hole h₀ h pre inside post lo hi) {c : Block} (member : c ∈ pre ++ post)
    (alloc : c.alloc = true) {a : Nat} (ge : c.addr + 8 ≤ a) (lt : a < c.addr + c.size) :
    h.mem a = h₀.mem a := by
  refine hole.mem a ?_ (hole.outer.payload_linkless member alloc (by omega) lt)
  rcases List.mem_append.mp member with inPre | inPost
  · have := hole.below c inPre
    omega
  · have := hole.above c inPost
    omega

end Heap

end SystemsLabs.Malloc
