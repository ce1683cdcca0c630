/-
# SystemsLabs.Malloc.Allocate -- `malloc` on a sound heap

`malloc` composes `find_fit`, `extend_heap` and `split_block`.  `Served` is what a
successful call leaves: one more allocated block, large enough, in a sound heap, and
every other allocated block with its bytes.  `malloc_spec` is for the requests whose
adjusted size does not wrap around.
-/
import SystemsLabs.Malloc.Extend
import SystemsLabs.Malloc.Split

namespace SystemsLabs.Malloc

set_option autoImplicit false

/-- The adjusted size of a request that does not wrap. -/
theorem adjustedSize_spec {size : Nat} (small : size + 23 < wordMod) :
    adjustedSize size % 16 = 0 ∧ minBlockSize ≤ adjustedSize size ∧ size + 8 ≤ adjustedSize size ∧
      adjustedSize size + 15 < wordMod := by
  have modulus : wordMod % 16 = 0 := by decide
  have large : 31 < wordMod := by decide
  unfold adjustedSize
  by_cases word : size ≤ wsize
  · rw [if_pos word]
    show 16 % 16 = 0 ∧ 16 ≤ 16 ∧ size + 8 ≤ 16 ∧ 16 + 15 < wordMod
    simp only [wsize] at word
    omega
  · rw [if_neg word]
    simp only [wsize] at word
    rw [wsize, wadd_of_lt (by omega), roundUp_dsize (by omega)]
    show _ ∧ 16 ≤ _ ∧ _
    omega

namespace Heap

variable {h h₁ : Heap} {L L₁ : Layout} {b c : Block} {os : SbrkAnswers} {size : Nat}

/-- The effect of a successful `malloc`, which allocates the block `c`. -/
structure Served (h h' : Heap) (L L' : Layout) (c : Block) (size : Nat) : Prop where
  sound : h'.Sound L'
  member : c ∈ L'.blocks
  alloc : c.alloc = true
  room : size + 8 ≤ c.size
  fresh : c ∉ L.blocks
  kept : ∀ d : Block, d.alloc = true → d ≠ c → (d ∈ L'.blocks ↔ d ∈ L.blocks)
  payload : ∀ d ∈ L.blocks, d.alloc = true → ∀ a, d.addr + 8 ≤ a → a < d.addr + d.size →
    h'.mem a = h.mem a

/-- What `malloc` did, and that it wrote nothing before the first block. -/
structure ServedInside (h h' : Heap) (L L' : Layout) (c : Block) (size : Nat) : Prop
    extends Served h h' L L' c size where
  heapStart : h'.heapStart = h.heapStart
  front : KeepsFront h h'

/-- `malloc` on a heap that is initialised, after the trivial cases. -/
theorem malloc_eq (started : h.heapStart ≠ 0) (nonzero : size ≠ 0) :
    h.malloc os size = (h.findFit (adjustedSize size)).bind fun block =>
      if block = 0 then
        (h.extendHeap os.extend (max (adjustedSize size) chunksize)).bind fun answer =>
          if answer.1 = 0 then some (0, answer.2)
          else (answer.2.splitBlock answer.1 (adjustedSize size)).map fun h =>
            (headerToPayload answer.1, h)
      else (h.splitBlock block (adjustedSize size)).map fun h => (headerToPayload block, h) := by
  have same : h.ensureInit os = some h := if_neg started
  simp only [malloc, same, Option.bind_eq_bind, Option.bind_some, if_neg nonzero]
  cases h.findFit (adjustedSize size) with
  | none => rfl
  | some block =>
      by_cases isNull : block = 0
      · simp only [Option.bind_some, if_pos isNull]
        cases h.extendHeap os.extend (max (adjustedSize size) chunksize) with
        | none => rfl
        | some answer =>
            simp only [Option.bind_some]
            split
            · rfl
            · cases answer.2.splitBlock answer.1 (adjustedSize size) <;> rfl
      · simp only [Option.bind_some, if_neg isNull]
        cases h.splitBlock block (adjustedSize size) <;> rfl

/-- The last step of `malloc`: a free block that is large enough is allocated. -/
theorem Sound.serve (sound : h₁.Sound L₁) (member : b ∈ L₁.blocks) (free : b.alloc = false)
    (small : size + 23 < wordMod) (le : adjustedSize size ≤ b.size)
    (kept : ∀ d : Block, d.alloc = true → (d ∈ L₁.blocks ↔ d ∈ L.blocks))
    (payload : ∀ d ∈ L.blocks, d.alloc = true → ∀ a, d.addr + 8 ≤ a → a < d.addr + d.size →
      h₁.mem a = h.mem a)
    (start : h₁.heapStart = h.heapStart) (front : KeepsFront h h₁) :
    ∃ h' L' c, h₁.splitBlock b.addr (adjustedSize size) = some h' ∧ c.addr = b.addr ∧
      ServedInside h h' L L' c size := by
  obtain ⟨aligned, least, room, -⟩ := adjustedSize_spec small
  obtain ⟨pre, post, h', split, step, carved, after⟩ := splitBlock_spec sound member free aligned least le
  obtain ⟨c, rest, shape, alloc, addr, cSize⟩ := carve_head b (adjustedSize size)
  have fresh : c ∉ L.blocks := by
    intro old
    have same := sound.toWellFormed.spaced.addr_injective member ((kept c alloc).mpr old) addr
    rw [same, free] at alloc
    cases alloc
  have others : ∀ d : Block, d.alloc = true → d ≠ c → d ∉ carve b (adjustedSize size) := by
    intro d used ne
    rw [carve] at shape ⊢
    split at shape <;> rename_i whole
    · rw [if_pos whole]
      obtain ⟨rfl, -⟩ := List.cons.inj shape
      simpa using ne
    · rw [if_neg whole]
      obtain ⟨rfl, -⟩ := List.cons.inj shape
      simp only [List.mem_cons, List.not_mem_nil, or_false, not_or]
      refine ⟨ne, ?_⟩
      rintro rfl
      cases used
  have outer : ∀ d ∈ L.blocks, d.alloc = true → d ∈ pre ++ post := by
    intro d old used
    have inL₁ := (kept d used).mpr old
    rw [split] at inL₁
    simp only [List.mem_append, List.mem_cons] at inL₁ ⊢
    rcases inL₁ with inPre | rfl | inPost
    · exact Or.inl inPre
    · rw [free] at used
      cases used
    · exact Or.inr inPost
  refine ⟨h', _, c, step, addr, ⟨carved.sound, ?_, alloc, by omega, fresh, fun d used ne => ?_,
    fun d old used a ge lt => (carved.payload d (outer d old used) used a ge lt).trans
      (payload d old used a ge lt)⟩, carved.heapStart.trans start, front.trans start after⟩
  · show c ∈ pre ++ carve b (adjustedSize size) ++ post
    simp [shape]
  · rw [← kept d used, split]
    show d ∈ pre ++ carve b (adjustedSize size) ++ post ↔ _
    have off := others d used ne
    have notB : d ≠ b := by
      rintro rfl
      rw [free] at used
      cases used
    simp [off, notB]

theorem malloc_inside (sound : h.Sound L) (os : SbrkAnswers) (small : size + 23 < wordMod) :
    h.malloc os size = some (0, h) ∨
      ∃ h' L' c, h.malloc os size = some (headerToPayload c.addr, h') ∧ ServedInside h h' L L' c size := by
  by_cases zero : size = 0
  · subst zero
    have started : h.ensureInit os = some h := if_neg sound.start_pos.ne'
    exact Or.inl (by simp [malloc, started])
  · rw [malloc_eq sound.start_pos.ne' zero]
    obtain ⟨aligned, least, room, fits⟩ := adjustedSize_spec small
    have wf := sound.toWellFormed
    obtain ⟨x, found, ⟨rfl, -⟩ | ⟨b, member, fit, rfl⟩⟩ := findFit_spec wf (adjustedSize size)
    · have chunk : chunksize = 4096 := rfl
      have extendSize : (max (adjustedSize size) chunksize) % 16 = 0 ∧
          adjustedSize size ≤ max (adjustedSize size) chunksize ∧
          0 < max (adjustedSize size) chunksize ∧ max (adjustedSize size) chunksize + 15 < wordMod := by
        have modulus : 2 ^ 14 < wordMod := by decide
        unfold max
        split <;> omega
      obtain ⟨aligned', le', pos', fits'⟩ := extendSize
      rcases extendHeap_spec sound os.extend aligned' pos' fits' with
        ⟨-, refused⟩ | ⟨-, m, h₁, L₁, step, large, ext, start, front⟩
      · left
        rw [found, Option.bind_some, if_pos rfl, refused]
        rfl
      · right
        have nonnull : m.addr ≠ 0 := (ext.sound.toWellFormed.spaced.legal m ext.member).pos.ne'
        obtain ⟨h', L', c, split, addr, served⟩ := ext.sound.serve ext.member ext.free small
          (le'.trans large) ext.kept ext.payload start front
        refine ⟨h', L', c, ?_, served⟩
        rw [found, Option.bind_some, if_pos rfl, step, Option.bind_some, if_neg nonnull, split, addr]
        rfl
    · right
      have nonnull : b.addr ≠ 0 := (wf.spaced.legal b member).pos.ne'
      obtain ⟨h', L', c, split, addr, served⟩ := sound.serve (h := h) member fit.free small fit.le
        (fun _ _ => Iff.rfl) (fun _ _ _ _ _ _ => rfl) rfl fun _ _ => rfl
      refine ⟨h', L', c, ?_, served⟩
      rw [found, Option.bind_some, if_neg nonnull, split, addr]
      rfl

/-- `malloc` returns null only where `mem_sbrk` refuses. -/
theorem malloc_null {h' : Heap} (sound : h.Sound L) (os : SbrkAnswers) (nonzero : size ≠ 0) (small : size + 23 < wordMod)
    (null : h.malloc os size = some (0, h')) : h.memSbrk os.extend (max (adjustedSize size) chunksize) = none := by
  rw [malloc_eq sound.start_pos.ne' nonzero] at null
  obtain ⟨aligned, least, room, fits⟩ := adjustedSize_spec small
  have wf := sound.toWellFormed
  have real : ∀ block, headerToPayload block ≠ 0 := by simp [headerToPayload, wsize]
  obtain ⟨x, found, ⟨rfl, -⟩ | ⟨b, member, -, rfl⟩⟩ := findFit_spec wf (adjustedSize size)
  · rw [found, Option.bind_some, if_pos rfl] at null
    have chunk : chunksize = 4096 := rfl
    have extendSize : (max (adjustedSize size) chunksize) % 16 = 0 ∧ 0 < max (adjustedSize size) chunksize ∧
        max (adjustedSize size) chunksize + 15 < wordMod := by
      have modulus : 2 ^ 14 < wordMod := by decide
      unfold max
      split <;> omega
    obtain ⟨aligned', pos', fits'⟩ := extendSize
    rcases extendHeap_spec sound os.extend aligned' pos' fits' with ⟨refused, -⟩ | ⟨-, m, h₁, L₁, step, -, ext, -⟩
    · exact refused
    · have nonnull : m.addr ≠ 0 := (ext.sound.toWellFormed.spaced.legal m ext.member).pos.ne'
      rw [step, Option.bind_some, if_neg nonnull] at null
      obtain ⟨_, _, same⟩ := Option.map_eq_some_iff.mp null
      exact absurd (Prod.mk.inj same).1 (real _)
  · have nonnull : b.addr ≠ 0 := (wf.spaced.legal b member).pos.ne'
    rw [found, Option.bind_some, if_neg nonnull] at null
    obtain ⟨_, _, same⟩ := Option.map_eq_some_iff.mp null
    exact absurd (Prod.mk.inj same).1 (real _)

/-- **`malloc`** of a request that does not wrap: null and nothing changed, or a new block. -/
theorem malloc_spec (sound : h.Sound L) (os : SbrkAnswers) (small : size + 23 < wordMod) :
    h.malloc os size = some (0, h) ∨
      ∃ h' L' c, h.malloc os size = some (headerToPayload c.addr, h') ∧ Served h h' L L' c size := by
  apply (malloc_inside sound os small).imp_right
  rintro ⟨h', L', c, step, served⟩
  exact ⟨h', L', c, step, served.toServed⟩

/-- **`malloc` keeps a heap sound**: it returns null and changes nothing, or an aligned
pointer to a new block that is large enough. -/
theorem malloc_sound (sound : h.Sound L) (os : SbrkAnswers) (small : size + 23 < 2 ^ 64) :
    h.malloc os size = some (0, h) ∨ ∃ p h' L' c, h.malloc os size = some (p, h') ∧
      p = headerToPayload c.addr ∧ p % 16 = 0 ∧ Served h h' L L' c size := by
  apply (malloc_spec sound os small).imp_right
  rintro ⟨h', L', c, step, served⟩
  refine ⟨_, h', L', c, step, rfl, ?_, served⟩
  have := served.sound.addr_mod served.member
  simp only [headerToPayload, wsize]
  omega

theorem malloc_sound_twoBlocks :
    twoBlocks.malloc ⟨true, true, true⟩ 8 = some (0, twoBlocks) ∨
      ∃ p h' L' c, twoBlocks.malloc ⟨true, true, true⟩ 8 = some (p, h') ∧
        p = headerToPayload c.addr ∧ p % 16 = 0 ∧ Served twoBlocks h' twoBlocksLayout L' c 8 :=
  malloc_sound twoBlocks_sound ⟨true, true, true⟩ (by decide)

/-! ## The search is complete -/

/-- Requests are rounded to a multiple of 16, even where the rounding wraps. -/
theorem adjustedSize_aligned (size : Nat) : adjustedSize size % 16 = 0 := by
  have divides : 16 ∣ wordMod := by decide
  unfold adjustedSize
  split
  · rfl
  · rw [roundUp, wmul, Nat.mod_mod_of_dvd _ divides]
    exact Nat.mul_mod_right 16 _

/-- **`find_fit` finds a block that is large enough wherever there is one**, and `malloc` then
goes on to split it: it asks `mem_sbrk` for memory only if no free block could serve. -/
theorem findFit_complete {bs : List Block} {lists : Bin → List Nat} (listed : h.Listed bs lists) :
    (∀ asize, 0 < asize → asize % 16 = 0 → ∃ x, h.findFit asize = some x ∧
      ((∃ b ∈ bs, b.alloc = false ∧ asize ≤ b.size ∧ x = b.addr) ∨
        x = 0 ∧ ∀ b ∈ bs, b.alloc = false → b.size < asize)) ∧
    (h.heapStart ≠ 0 → ∀ size ≠ 0, 0 < adjustedSize size →
      (∃ b ∈ bs, b.alloc = false ∧ adjustedSize size ≤ b.size) →
      ∃ b ∈ bs, b.alloc = false ∧ adjustedSize size ≤ b.size ∧ ∀ os, h.malloc os size =
        (h.splitBlock b.addr (adjustedSize size)).map fun h' => (headerToPayload b.addr, h')) := by
  have search : ∀ asize, 0 < asize → asize % 16 = 0 → ∃ x, h.findFit asize = some x ∧
      ((∃ b ∈ bs, b.alloc = false ∧ asize ≤ b.size ∧ x = b.addr) ∨
        x = 0 ∧ ∀ b ∈ bs, b.alloc = false → b.size < asize) := by
    intro asize positive aligned
    obtain ⟨x, found, ⟨null, isNull⟩ | ⟨b, member, fits, isAddr⟩⟩ := listed.findFit asize
    · refine ⟨x, found, Or.inr ⟨null, ?_⟩⟩
      intro b member free
      by_contra large
      exact isNull b member ((fits_iff positive aligned).mpr ⟨free, Nat.le_of_not_lt large⟩)
    · exact ⟨x, found, Or.inl ⟨b, member, fits.free, fits.le, isAddr⟩⟩
  refine ⟨search, ?_⟩
  rintro started size nonzero positive ⟨c, memC, freeC, large⟩
  obtain ⟨x, found, ⟨b, member, free, le, rfl⟩ | ⟨-, isNull⟩⟩ :=
    search (adjustedSize size) positive (adjustedSize_aligned size)
  · refine ⟨b, member, free, le, ?_⟩
    intro os
    have nonnull : b.addr ≠ 0 := (listed.placed b member free).1.ne'
    rw [malloc_eq started nonzero, found, Option.bind_some, if_neg nonnull]
  · exact absurd large (Nat.not_le.mpr (isNull c memC freeC))

theorem findFit_complete_twoBlocks : ∃ lists,
    (∀ asize, 0 < asize → asize % 16 = 0 → ∃ x, twoBlocks.findFit asize = some x ∧
      ((∃ b ∈ twoBlocksLayout.blocks, b.alloc = false ∧ asize ≤ b.size ∧ x = b.addr) ∨
        x = 0 ∧ ∀ b ∈ twoBlocksLayout.blocks, b.alloc = false → b.size < asize)) ∧
    (twoBlocks.heapStart ≠ 0 → ∀ size ≠ 0, 0 < adjustedSize size →
      (∃ b ∈ twoBlocksLayout.blocks, b.alloc = false ∧ adjustedSize size ≤ b.size) →
      ∃ b ∈ twoBlocksLayout.blocks, b.alloc = false ∧ adjustedSize size ≤ b.size ∧
        ∀ os, twoBlocks.malloc os size = (twoBlocks.splitBlock b.addr (adjustedSize size)).map
          fun h' => (headerToPayload b.addr, h')) ∧
    twoBlocks.Listed twoBlocksLayout.blocks lists := by
  obtain ⟨lists, index⟩ := twoBlocks_sound.indexed
  have listed := twoBlocks_sound.toWellFormed.listed index
  exact ⟨lists, (findFit_complete listed).1, (findFit_complete listed).2, listed⟩

end Heap

end SystemsLabs.Malloc
