/-
# SystemsLabs.Malloc.Interface -- `realloc` and `calloc` on a sound heap

Both are `malloc` with a write into the new payload, which belongs to the user
(`Served.writePayload`).  `calloc_eq` is the effect of the overflow check; `realloc`
ends with a `free` of the old block, and `realloc_spec` says in which heap.  Between the
two stands the copy; `realloc_keeps` says what is left of the old contents.
-/
import SystemsLabs.Malloc.Allocate
import SystemsLabs.Malloc.Free

namespace SystemsLabs.Malloc

open SystemsLabs.Theory.ByteMemory

set_option autoImplicit false

namespace Heap

variable {h h' h₁ : Heap} {L L' L₁ : Layout} {b c : Block} {os : SbrkAnswers} {size : Nat} {mem : Mem}

theorem Sound.writePayload (sound : h.Sound L) (member : c ∈ L.blocks) (alloc : c.alloc = true)
    (same : ∀ a, (a < c.addr + 8 ∨ c.addr + c.size ≤ a) → mem a = h.mem a) :
    Sound { h with mem := mem } L :=
  ⟨sound.toWellFormed.writePayload member alloc same, sound.start_aligned, sound.maxAddr_le, sound.last⟩

/-- A new block may be written into at once. -/
theorem Served.writePayload (served : Served h h' L L' c size)
    (same : ∀ a, (a < c.addr + 8 ∨ c.addr + c.size ≤ a) → mem a = h'.mem a) :
    Served h { h' with mem := mem } L L' c size where
  sound := served.sound.writePayload served.member served.alloc same
  member := served.member
  alloc := served.alloc
  room := served.room
  fresh := served.fresh
  kept := served.kept
  payload d old used a ge lt := by
    have ne : d ≠ c := by
      rintro rfl
      exact served.fresh old
    have inNew := (served.kept d used ne).mpr old
    have apart := (served.sound.toWellFormed.spaced.apart served.member inNew).resolve_left ne
    have := (served.sound.toWellFormed.spaced.legal d inNew).le_size
    exact (same a (by omega)).trans (served.payload d old used a ge lt)

theorem Sound.heapStart_le (sound : h.Sound L) (member : c ∈ L.blocks) : h.heapStart ≤ c.addr := by
  obtain ⟨e', row, -⟩ := sound.closed
  exact (row.bounds.2.2 c member).1

/-- The payload of a block lies after the start of the heap. -/
theorem ServedInside.writePayload (served : ServedInside h h' L L' c size)
    (same : ∀ a, (a < c.addr + 8 ∨ c.addr + c.size ≤ a) → mem a = h'.mem a) :
    ServedInside h { h' with mem := mem } L L' c size where
  toServed := served.toServed.writePayload same
  heapStart := served.heapStart
  front a lt := by
    have := served.sound.heapStart_le served.member
    have := served.heapStart
    exact (same a (by omega)).trans (served.front a lt)

/-! ## `calloc` -/

/-- The overflow check lets exactly the products pass that fit in a word. -/
theorem calloc_eq {elements size : Nat} (nonzero : elements ≠ 0) :
    h.calloc os elements size = if wordMod ≤ elements * size then some (0, h)
      else (h.malloc os (elements * size)).map fun answer =>
        if answer.1 = 0 then (0, answer.2)
        else (answer.1, { answer.2 with mem := fill answer.2.mem answer.1 0 (elements * size) }) := by
  have positive : 0 < elements := Nat.pos_of_ne_zero nonzero
  by_cases overflow : wordMod ≤ elements * size
  · have differs : wmul elements size / elements ≠ size := by
      have less : wmul elements size < elements * size := by
        have := Nat.mod_lt (elements * size) wordMod_pos
        unfold wmul
        omega
      have := Nat.div_lt_of_lt_mul less
      omega
    rw [if_pos overflow, calloc, if_neg nonzero, if_pos differs]
  · have noWrap : wmul elements size = elements * size := wmul_of_lt (Nat.lt_of_not_le overflow)
    rw [if_neg overflow, calloc, if_neg nonzero, noWrap, if_neg (by
      rw [Nat.mul_div_cancel_left size positive]
      exact not_not_intro rfl)]
    cases h.malloc os (elements * size) with
    | none => rfl
    | some answer =>
        by_cases null : answer.1 = 0 <;> simp [null]

/-- `calloc` of a product that does not wrap. -/
theorem calloc_spec (sound : h.Sound L) (os : SbrkAnswers) {elements size : Nat}
    (small : elements * size + 23 < wordMod) :
    h.calloc os elements size = some (0, h) ∨ ∃ h' L' c,
      h.calloc os elements size = some (headerToPayload c.addr, h') ∧
      ServedInside h h' L L' c (elements * size) := by
  by_cases zero : elements = 0
  · exact Or.inl (if_pos zero)
  · rw [calloc_eq zero, if_neg (by omega)]
    rcases malloc_inside sound os small with null | ⟨h', L', c, step, served⟩
    · left
      rw [null]
      rfl
    · right
      have room := served.room
      refine ⟨{ h' with mem := fill h'.mem (headerToPayload c.addr) 0 (elements * size) }, L', c, ?_,
        served.writePayload fun a out => fill_outside _ _ _ _ ?_⟩
      · rw [step, Option.map_some, if_neg (by simp [headerToPayload, wsize])]
      · simp only [headerToPayload, wsize]
        omega

/-! ## `realloc` -/

/-- What a `realloc` of `b` did, if it returned a pointer: a `malloc` of the block `c`, a copy
into it that leads to the heap `h₁`, and a `free` there. -/
structure Moved (h h' : Heap) (L : Layout) (os : SbrkAnswers) (b c : Block) (size : Nat) (h₁ : Heap)
    (L₁ : Layout) (pre lo hi post : List Block) : Prop where
  malloc : ∃ h₀, h.malloc os size = some (headerToPayload c.addr, h₀) ∧ h₀.WellFormed L₁
  served : Served h h₁ L L₁ c size
  around : Around L₁.blocks b pre lo hi post
  freed : Freed h₁ h' L₁ b pre lo hi post

/-- The steps of a `realloc` of a live block to a size that does not wrap: the `malloc` leads to
the heap `h₀`, the copy to `h₁`. -/
theorem realloc_steps (sound : h.Sound L) (os : SbrkAnswers) (member : b ∈ L.blocks)
    (alloc : b.alloc = true) (nonzero : size ≠ 0) (small : size + 23 < wordMod) :
    h.realloc os (headerToPayload b.addr) size = some (0, h) ∨ ∃ c h₀ h₁ L₁ pre lo hi post h',
      h.realloc os (headerToPayload b.addr) size = some (headerToPayload c.addr, h') ∧
      h₁ = { h₀ with
        mem := copy h₀.mem (headerToPayload c.addr) (headerToPayload b.addr) (min size (b.size - 8)) } ∧
      Served h h₀ L L₁ c size ∧ Moved h h' L os b c size h₁ L₁ pre lo hi post ∧
      h'.heapStart = h.heapStart ∧ KeepsFront h h' := by
  have nonnull : headerToPayload b.addr ≠ 0 := by simp [headerToPayload, wsize]
  have back : payloadToHeader (headerToPayload b.addr) = b.addr := by
    simp [payloadToHeader, headerToPayload]
  rcases malloc_inside sound os small with null | ⟨h₀, L₁, c, step, served⟩
  · left
    simp [realloc, nonzero, nonnull, null]
  · right
    have ne : b ≠ c := by
      rintro rfl
      exact served.fresh member
    have still : b ∈ L₁.blocks := (served.kept b alloc ne).mpr member
    have wf := served.sound.toWellFormed
    have size₀ : h₀.getPayloadSize b.addr = b.size - 8 := by
      have legal := wf.spaced.legal b still
      rw [getPayloadSize, wf.getSize still]
      exact wsub_of_le (by have := legal.le_size; simp only [wsize]; omega) legal.isSize.2
    have copied : (if size < b.size - 8 then size else b.size - 8) = min size (b.size - 8) := by
      split <;> omega
    have room := served.room
    have outside : ∀ a, (a < c.addr + 8 ∨ c.addr + c.size ≤ a) →
        copy h₀.mem (headerToPayload c.addr) (headerToPayload b.addr) (min size (b.size - 8)) a =
          h₀.mem a := fun a out =>
      copy_outside _ _ _ _ (by simp only [headerToPayload, wsize]; omega)
    have served₁ := served.writePayload outside
    obtain ⟨pre, lo, hi, post, around⟩ := exists_around served₁.sound.coalesced still
    obtain ⟨h', freed, done⟩ := free_inside served₁.sound.toWellFormed around alloc
    refine ⟨c, h₀, _, L₁, pre, lo, hi, post, h', ?_, rfl, served.toServed,
      ⟨⟨h₀, step, wf⟩, served₁.toServed, around, done.toFreed⟩, done.heapStart.trans served₁.heapStart,
      served₁.front.trans served₁.heapStart done.front⟩
    have notNull : headerToPayload c.addr ≠ 0 := by simp [headerToPayload, wsize]
    simp [realloc, nonzero, nonnull, step, notNull, back, size₀, copied, freed]

/-- `realloc` returns null only where its `malloc` does. -/
theorem realloc_null {p : Nat} {h' : Heap} (os : SbrkAnswers) (nonzero : size ≠ 0)
    (null : h.realloc os p size = some (0, h')) : ∃ h₀, h.malloc os size = some (0, h₀) := by
  rw [realloc, if_neg nonzero] at null
  by_cases isNull : p = 0
  · rw [if_pos isNull] at null
    exact ⟨h', null⟩
  · rw [if_neg isNull, Option.bind_eq_bind, Option.bind_eq_some_iff] at null
    obtain ⟨⟨newptr, h₀⟩, allocated, null⟩ := null
    by_cases none : newptr = 0
    · exact ⟨h₀, none ▸ allocated⟩
    · simp only [if_neg none, Option.bind_eq_bind, Option.bind_eq_some_iff] at null
      obtain ⟨_, _, same⟩ := null
      exact absurd (Prod.mk.inj (Option.some.inj same)).1 none

/-- `realloc` of a live block to a size that does not wrap. -/
theorem realloc_spec (sound : h.Sound L) (os : SbrkAnswers) (member : b ∈ L.blocks)
    (alloc : b.alloc = true) (nonzero : size ≠ 0) (small : size + 23 < wordMod) :
    h.realloc os (headerToPayload b.addr) size = some (0, h) ∨ ∃ c h₁ L₁ pre lo hi post h',
      h.realloc os (headerToPayload b.addr) size = some (headerToPayload c.addr, h') ∧
      Moved h h' L os b c size h₁ L₁ pre lo hi post ∧ h'.heapStart = h.heapStart ∧ KeepsFront h h' := by
  apply (realloc_steps sound os member alloc nonzero small).imp_right
  rintro ⟨c, -, h₁, L₁, pre, lo, hi, post, h', step, -, -, moved⟩
  exact ⟨c, h₁, L₁, pre, lo, hi, post, h', step, moved⟩

/-! ## What `realloc` keeps -/

/-- The effect of a `realloc` of the block `b` that returned the block `c`: a prefix of the old
contents is in `c`, `b` is no longer in use, and every other live block keeps its place and its
contents. -/
structure Reallocated (h h' : Heap) (L L' : Layout) (b c : Block) (size : Nat) : Prop where
  wellFormed : h'.WellFormed L'
  room : size + 8 ≤ c.size
  copied : ∀ i < min size (b.size - 8),
    h'.mem (headerToPayload c.addr + i) = h.mem (headerToPayload b.addr + i)
  inUse : ∀ d : Block, d.alloc = true → (d ∈ L'.blocks ↔ d = c ∨ d ∈ L.blocks ∧ d ≠ b)
  gone : ¬ L'.Live (headerToPayload b.addr)
  payload : ∀ d ∈ L.blocks, d.alloc = true → d ≠ b → ∀ a, d.addr + 8 ≤ a → a < d.addr + d.size →
    h'.mem a = h.mem a

/-- The blocks in use after a `free` of `b`. -/
theorem inUse_freed {L : Layout} {pre lo hi post : List Block} {d : Block} (spaced : Spaced L.blocks)
    (around : Around L.blocks b pre lo hi post) (used : d.alloc = true) :
    d ∈ (L.freed b pre lo hi post).blocks ↔ d ∈ L.blocks ∧ d ≠ b := by
  constructor
  · intro member
    rw [around.split] at spaced ⊢
    simp only [Layout.freed, List.mem_append, List.mem_singleton] at member
    have outer : d ∈ pre ++ post := by
      rw [List.mem_append]
      rcases member with (inPre | rfl) | inPost
      · exact Or.inl inPre
      · cases used
      · exact Or.inr inPost
    have shape : pre ++ (lo ++ b :: hi) ++ post = (pre ++ lo) ++ b :: (hi ++ post) := by simp
    rw [shape] at spaced ⊢
    rw [List.mem_append] at outer
    have inRest : d ∈ pre ++ lo ∨ d ∈ hi ++ post := by
      rcases outer with inPre | inPost
      · exact Or.inl (List.mem_append_left _ inPre)
      · exact Or.inr (List.mem_append_right _ inPost)
    refine ⟨?_, ?_⟩
    · rw [List.mem_append, List.mem_cons]
      exact inRest.imp_right Or.inr
    · rintro rfl
      have wide := (spaced.legal d (by simp)).size_pos
      rcases inRest with before | after
      · have := spaced.before d before
        omega
      · have := spaced.after d after
        omega
  · rintro ⟨member, ne⟩
    exact around.mem_freed member used ne

theorem Moved.reallocated {pre lo hi post : List Block} {L₁ : Layout} {h₀ : Heap} (sound : h.Sound L)
    (member : b ∈ L.blocks) (alloc : b.alloc = true) (served : Served h h₀ L L₁ c size)
    (isCopy : h₁ = { h₀ with
      mem := copy h₀.mem (headerToPayload c.addr) (headerToPayload b.addr) (min size (b.size - 8)) })
    (moved : Moved h h' L os b c size h₁ L₁ pre lo hi post) :
    Reallocated h h' L (L₁.freed b pre lo hi post) b c size := by
  have ne : b ≠ c := by
    rintro rfl
    exact served.fresh member
  have room := served.room
  have spaced := served.sound.toWellFormed.spaced
  have inUse : ∀ d : Block, d.alloc = true →
      (d ∈ (L₁.freed b pre lo hi post).blocks ↔ d = c ∨ d ∈ L.blocks ∧ d ≠ b) := by
    intro d used
    rw [inUse_freed spaced moved.around used]
    by_cases isC : d = c
    · subst isC
      exact iff_of_true ⟨served.member, ne.symm⟩ (Or.inl rfl)
    · rw [served.kept d used isC]
      simp [isC]
  -- an allocated block outside the freed range keeps what it held after the copy
  have outside : ∀ d ∈ L₁.blocks, d.alloc = true → d ≠ b → ∀ a, d.addr + 8 ≤ a → a < d.addr + d.size →
      h'.mem a = h₁.mem a := by
    intro d inL₁ used other
    exact moved.freed.payload d (moved.around.outer_of_alloc inL₁ used other) used
  refine ⟨moved.freed.wellFormed, room, ?_, inUse, ?_, ?_⟩
  · intro i lt
    have intoC : h'.mem (headerToPayload c.addr + i) = h₁.mem (headerToPayload c.addr + i) := by
      apply outside c served.member served.alloc ne.symm
      · simp only [headerToPayload, wsize]
        omega
      · simp only [headerToPayload, wsize]
        omega
    have fromB : h₀.mem (headerToPayload b.addr + i) = h.mem (headerToPayload b.addr + i) := by
      have wide := (sound.toWellFormed.spaced.legal b member).le_size
      apply served.payload b member alloc
      · simp only [headerToPayload, wsize]
        omega
      · simp only [headerToPayload, wsize]
        omega
    rw [intoC, isCopy]
    exact (copy_inside _ _ _ _ lt).trans fromB
  · rintro ⟨d, inL', used, addr⟩
    have sameAddr : d.addr = b.addr := by
      simp only [headerToPayload] at addr
      omega
    rcases (inUse d used).mp inL' with rfl | ⟨old, other⟩
    · have still : b ∈ L₁.blocks := (served.kept b alloc ne).mpr member
      exact ne (spaced.addr_injective still served.member sameAddr).symm
    · exact other (sound.toWellFormed.spaced.addr_injective member old sameAddr)
  · intro d old used other a ge lt
    have notC : d ≠ c := by
      rintro rfl
      exact served.fresh old
    have inL₁ : d ∈ L₁.blocks := (served.kept d used notC).mpr old
    exact (outside d inL₁ used other a ge lt).trans (moved.served.payload d old used a ge lt)

/-- **`realloc`** of a live pointer: null and nothing changed, or a block with the old contents
in place of the old block.  To the size 0 it is `free`, and of the null pointer `malloc`. -/
theorem realloc_keeps (sound : h.Sound L) (os : SbrkAnswers) :
    (∀ p, L.Live p → ∀ size, 0 < size → size + 23 < wordMod →
      h.realloc os p size = some (0, h) ∨ ∃ b c h' L', b ∈ L.blocks ∧ b.alloc = true ∧
        p = headerToPayload b.addr ∧ h.realloc os p size = some (headerToPayload c.addr, h') ∧
        Reallocated h h' L L' b c size) ∧
    (∀ p, L.Live p → ∃ b pre lo hi post h', p = headerToPayload b.addr ∧
      Around L.blocks b pre lo hi post ∧ h.free p = some h' ∧ h.realloc os p 0 = some (0, h') ∧
      Freed h h' L b pre lo hi post) ∧
    ∀ size, h.realloc os 0 size = h.malloc os size := by
  refine ⟨?_, ?_, ?_⟩
  · rintro p ⟨b, member, alloc, rfl⟩ size positive small
    rcases realloc_steps sound os member alloc positive.ne' small with
      null | ⟨c, h₀, h₁, L₁, pre, lo, hi, post, h', step, isCopy, served, moved, -⟩
    · exact Or.inl null
    · exact Or.inr ⟨b, c, h', _, member, alloc, rfl, step, moved.reallocated sound member alloc served isCopy⟩
  · rintro p ⟨b, member, alloc, rfl⟩
    obtain ⟨pre, lo, hi, post, around⟩ := exists_around sound.coalesced member
    obtain ⟨h', step, freed⟩ := free_spec sound.toWellFormed around alloc
    refine ⟨b, pre, lo, hi, post, h', rfl, around, step, ?_, freed⟩
    rw [realloc, if_pos rfl, step]
    rfl
  · intro size
    by_cases zero : size = 0
    · subst zero
      have started : h.ensureInit os = some h := if_neg sound.start_pos.ne'
      simp [realloc, malloc, started, free]
    · rw [realloc, if_neg zero, if_pos rfl]

/-- On the heap with one live block, whose pointer is 16. -/
theorem realloc_keeps_twoBlocks : twoBlocksLayout.Live 16 ∧
    (∀ p, twoBlocksLayout.Live p → ∀ size, 0 < size → size + 23 < wordMod →
      twoBlocks.realloc ⟨true, true, true⟩ p size = some (0, twoBlocks) ∨
        ∃ b c h' L', b ∈ twoBlocksLayout.blocks ∧ b.alloc = true ∧ p = headerToPayload b.addr ∧
          twoBlocks.realloc ⟨true, true, true⟩ p size = some (headerToPayload c.addr, h') ∧
          Reallocated twoBlocks h' twoBlocksLayout L' b c size) ∧
    (∀ p, twoBlocksLayout.Live p → ∃ b pre lo hi post h', p = headerToPayload b.addr ∧
      Around twoBlocksLayout.blocks b pre lo hi post ∧ twoBlocks.free p = some h' ∧
      twoBlocks.realloc ⟨true, true, true⟩ p 0 = some (0, h') ∧
      Freed twoBlocks h' twoBlocksLayout b pre lo hi post) ∧
    ∀ size, twoBlocks.realloc ⟨true, true, true⟩ 0 size = twoBlocks.malloc ⟨true, true, true⟩ size :=
  ⟨⟨⟨8, 32, true⟩, by decide, rfl, rfl⟩, realloc_keeps twoBlocks_sound ⟨true, true, true⟩⟩

end Heap

end SystemsLabs.Malloc
