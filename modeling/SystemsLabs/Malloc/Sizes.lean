/-
# SystemsLabs.Malloc.Sizes -- requests close to `2 ^ 64`

The adjusted size of a request from `2 ^ 64 - 23` on wraps around to 0 or 16
(`adjustedSize_wraps`), and no block is large enough for it.  `Answers` is what a caller
may expect of any request: null, or a block with room for it, in a heap whose tiling and
other allocated blocks are intact.  For requests that wrap this holds only where the
allocator cannot even serve the wrapped size (`Starved`).  All of it supposes that `heap_end` has not
been lost (`EndKept`), as a `free` of the last block may do: `extend_heap` would pop a stale address.
-/
import SystemsLabs.Malloc.Session

namespace SystemsLabs.Malloc

open SystemsLabs.Theory.ByteMemory SystemsLabs.Theory.Runs

set_option autoImplicit false

theorem adjustedSize_wraps {size : Nat} (word : size < wordMod) (wraps : wordMod ≤ size + 23) :
    adjustedSize size = if size + 8 ≤ wordMod then 0 else 16 := by
  have large : 64 < wordMod := by decide
  have modulus : wordMod % 16 = 0 := by decide
  have minusOne : wsub dsize 1 = 15 := by decide
  have notWord : ¬ size ≤ wsize := by
    simp only [wsize]
    omega
  rw [adjustedSize, if_neg notWord, roundUp, minusOne]
  simp only [wadd, wmul, dsize, wsize]
  by_cases low : size + 8 < wordMod
  · have sum : (size + 8 + 15) % wordMod = size + 23 - wordMod := by
      rw [Nat.mod_eq_sub_mod (by omega), Nat.mod_eq_of_lt (by omega)]
    rw [Nat.mod_eq_of_lt low, sum, Nat.div_eq_of_lt (by omega), if_pos low.le]
    rfl
  · have carry : (size + 8) % wordMod = size + 8 - wordMod := by
      rw [Nat.mod_eq_sub_mod (by omega), Nat.mod_eq_of_lt (by omega)]
    have sum : (size + 8 - wordMod + 15) % wordMod = size + 8 - wordMod + 15 :=
      Nat.mod_eq_of_lt (by omega)
    rw [carry, sum]
    by_cases noWrap : size + 8 ≤ wordMod
    · rw [Nat.div_eq_of_lt (by omega), if_pos noWrap]
      rfl
    · have one : (size + 8 - wordMod + 15) / (2 * 8) = 1 := by omega
      rw [one, if_neg noWrap]
      rfl

namespace Heap

variable {h h' : Heap} {L L' : Layout} {b c : Block} {os : SbrkAnswers} {p size : Nat}

/-- What a request for `size` bytes may return, where `freed` is the pointer that it gives up:
null, or a block with room for the request, with the tiling and the other blocks intact. -/
def Answers (h : Heap) (L : Layout) (freed size : Nat) (result : Option (Nat × Heap)) : Prop :=
  ∃ p h' L', result = some (p, h') ∧ h'.WellFormed L' ∧
    (p = 0 ∨ ∃ c ∈ L'.blocks, c.alloc = true ∧ p = headerToPayload c.addr ∧ size ≤ c.size - 8) ∧
    ∀ d ∈ L.blocks, d.alloc = true → headerToPayload d.addr ≠ freed →
      d ∈ L'.blocks ∧ ∀ a, d.addr + 8 ≤ a → a < d.addr + d.size → h'.mem a = h.mem a

/-- No chunk is granted, and no free block serves the wrapped size: that is 0 up to
`2 ^ 64 - 8`, for which blocks of minimum size are not looked at, and 16 from there on. -/
def Starved (h : Heap) (L : Layout) (os : SbrkAnswers) (size : Nat) : Prop :=
  h.memSbrk os.extend chunksize = none ∧
    ∀ b ∈ L.blocks, b.alloc = false → size + 8 ≤ wordMod ∧ b.size = minBlockSize

theorem answers_null (wf : h.WellFormed L) (freed size : Nat) : Answers h L freed size (some (0, h)) :=
  ⟨0, h, L, rfl, wf, Or.inl rfl, fun _ member _ _ => ⟨member, fun _ _ _ => rfl⟩⟩

theorem Served.answers (served : Served h h' L L' c size) (freed : Nat) :
    Answers h L freed size (some (headerToPayload c.addr, h')) := by
  have room := served.room
  refine ⟨_, h', L', rfl, served.sound.toWellFormed,
    Or.inr ⟨c, served.member, served.alloc, rfl, by omega⟩, fun d old used _ => ⟨?_, served.payload d old used⟩⟩
  refine (served.kept d used ?_).mpr old
  rintro rfl
  exact served.fresh old

/-- No block has room for a request that wraps. -/
theorem answers_wrapped (word : size < wordMod) (wraps : wordMod ≤ size + 23) {freed : Nat}
    {answer : Nat × Heap} (answers : Answers h L freed size (some answer)) : answer.1 = 0 := by
  obtain ⟨p, h', L', same, wf, null | ⟨c, member, -, -, room⟩, -⟩ := answers
  · rw [Option.some.inj same, null]
  · have legal := wf.spaced.legal c member
    have := legal.fits
    have := legal.pos
    have := legal.aligned
    have modulus : wordMod % 16 = 0 := by decide
    have large : 64 < wordMod := by decide
    omega

/-- `malloc` of a request that wraps serves the wrapped size, unless it cannot. -/
theorem malloc_wrapped (sound : h.Sound L) (os : SbrkAnswers) (word : size < wordMod)
    (wraps : wordMod ≤ size + 23) :
    (Starved h L os size → h.malloc os size = some (0, h)) ∧
      (¬ Starved h L os size → ∀ answer, h.malloc os size = some answer → answer.1 ≠ 0) := by
  have large : 64 < wordMod := by decide
  have wf := sound.toWellFormed
  have asize := adjustedSize_wraps word wraps
  have chunk : max (adjustedSize size) chunksize = chunksize := by
    rw [asize]
    split <;> rfl
  have fits : ∀ b : Block, b.alloc = false → 16 ≤ b.size →
      (b.Fits (adjustedSize size) ↔ ¬ (size + 8 ≤ wordMod ∧ b.size = minBlockSize)) := by
    intro b free wide
    rw [asize]
    constructor
    · rintro ⟨-, -, isMin⟩ ⟨low, small⟩
      have := isMin small
      rw [if_pos low] at this
      cases this
    · intro usable
      by_cases low : size + 8 ≤ wordMod
      · rw [if_pos low]
        exact ⟨free, Nat.zero_le _, fun small => absurd ⟨low, small⟩ usable⟩
      · rw [if_neg low]
        exact ⟨free, wide, fun _ => rfl⟩
  have aligned : chunksize % 16 = 0 := rfl
  have extended := extendHeap_spec sound os.extend aligned (by decide) (by decide)
  rw [malloc_eq sound.start_pos.ne' (by omega), chunk]
  obtain ⟨x, found, ⟨rfl, noFit⟩ | ⟨b, member, fit, rfl⟩⟩ := findFit_spec wf (adjustedSize size)
  · rw [found, Option.bind_some, if_pos rfl]
    have noBlock : ∀ b ∈ L.blocks, b.alloc = false → size + 8 ≤ wordMod ∧ b.size = minBlockSize :=
      fun b member free => by
        by_contra usable
        exact noFit b member ((fits b free (wf.spaced.legal b member).le_size).mpr usable)
    rcases extended with ⟨refused, step⟩ | ⟨accepted, m, h₁, L₁, step, -, ext, -⟩
    · rw [step]
      exact ⟨fun _ => rfl, fun fed => absurd ⟨refused, noBlock⟩ fed⟩
    · have nonnull : m.addr ≠ 0 := (ext.sound.toWellFormed.spaced.legal m ext.member).pos.ne'
      rw [step, Option.bind_some, if_neg nonnull]
      refine ⟨fun starved => absurd starved.1 accepted, fun _ answer returned => ?_⟩
      obtain ⟨h₂, -, rfl⟩ := Option.map_eq_some_iff.mp returned
      simp [headerToPayload, wsize]
  · have legal := wf.spaced.legal b member
    rw [found, Option.bind_some, if_neg legal.pos.ne']
    refine ⟨fun starved => ?_, fun _ answer returned => ?_⟩
    · exact absurd (starved.2 b member fit.free) ((fits b fit.free legal.le_size).mp fit)
    · obtain ⟨h₂, -, rfl⟩ := Option.map_eq_some_iff.mp returned
      simp [headerToPayload, wsize]

/-! ## The three requests -/

theorem malloc_answers_iff (sound : h.Sound L) (os : SbrkAnswers) (freed : Nat) (word : size < wordMod) :
    Answers h L freed size (h.malloc os size) ↔ size + 23 < wordMod ∨ Starved h L os size := by
  have wf := sound.toWellFormed
  by_cases small : size + 23 < wordMod
  · refine iff_of_true ?_ (Or.inl small)
    rcases malloc_spec sound os small with null | ⟨h', L', c, step, served⟩
    · rw [null]
      exact answers_null wf freed size
    · rw [step]
      exact served.answers freed
  · obtain ⟨whenStarved, whenFed⟩ := malloc_wrapped sound os word (Nat.le_of_not_lt small)
    constructor
    · intro answers
      right
      by_contra fed
      obtain ⟨p, h', -, returned, -⟩ := id answers
      rw [returned] at answers
      exact whenFed fed _ returned (answers_wrapped word (Nat.le_of_not_lt small) answers)
    · rintro (small' | starved)
      · exact absurd small' small
      · rw [whenStarved starved]
        exact answers_null wf freed size

theorem calloc_answers_iff {elements : Nat} (sound : h.Sound L) (os : SbrkAnswers) (freed : Nat) :
    Answers h L freed (elements * size) (h.calloc os elements size) ↔
      elements * size + 23 < wordMod ∨ wordMod ≤ elements * size ∨ Starved h L os (elements * size) := by
  have wf := sound.toWellFormed
  by_cases small : elements * size + 23 < wordMod
  · refine iff_of_true ?_ (Or.inl small)
    rcases calloc_spec sound os small with null | ⟨h', L', c, step, served⟩
    · rw [null]
      exact answers_null wf freed _
    · rw [step]
      exact served.answers freed
  · have large : 64 < wordMod := by decide
    have nonzero : elements ≠ 0 := by
      rintro rfl
      rw [Nat.zero_mul] at small
      omega
    rw [calloc_eq nonzero]
    by_cases overflow : wordMod ≤ elements * size
    · rw [if_pos overflow]
      exact iff_of_true (answers_null wf freed _) (Or.inr (Or.inl overflow))
    · rw [if_neg overflow]
      have word := Nat.lt_of_not_le overflow
      obtain ⟨whenStarved, whenFed⟩ := malloc_wrapped sound os word (Nat.le_of_not_lt small)
      constructor
      · intro answers
        right
        right
        by_contra fed
        obtain ⟨p, h', -, returned, -⟩ := id answers
        obtain ⟨answer, allocated, same⟩ := Option.map_eq_some_iff.mp returned
        have nonnull := whenFed fed answer allocated
        rw [if_neg nonnull] at same
        have first : answer.1 = p := (Prod.mk.inj same).1
        rw [returned] at answers
        exact nonnull (first.trans (answers_wrapped word (Nat.le_of_not_lt small) answers))
      · rintro (small' | overflow' | starved)
        · exact absurd small' small
        · exact absurd overflow' overflow
        · rw [whenStarved starved]
          exact answers_null wf freed _

/-- `free`, as an answer to a request for no bytes. -/
theorem free_answers (wf : h.WellFormed L) (pointer : p = 0 ∨ L.Live p) :
    Answers h L p size ((h.free p).map fun h => (0, h)) := by
  rcases pointer with rfl | ⟨b, member, alloc, rfl⟩
  · exact answers_null wf 0 size
  · obtain ⟨pre, lo, hi, post, around⟩ := exists_around wf.coalesced member
    obtain ⟨h', step, freed⟩ := free_spec wf around alloc
    rw [step]
    refine ⟨0, h', _, rfl, freed.wellFormed, Or.inl rfl, fun d old used ne => ?_⟩
    have notB : d ≠ b := by
      rintro rfl
      exact ne rfl
    exact ⟨around.mem_freed old used notB, freed.payload d (around.outer_of_alloc old used notB) used⟩

theorem realloc_answers_iff (sound : h.Sound L) (os : SbrkAnswers) (word : size < wordMod)
    (pointer : p = 0 ∨ L.Live p) :
    Answers h L p size (h.realloc os p size) ↔ size + 23 < wordMod ∨ Starved h L os size := by
  have wf := sound.toWellFormed
  by_cases zero : size = 0
  · subst zero
    have large : 64 < wordMod := by decide
    have asFree : h.realloc os p 0 = (h.free p).map fun h => (0, h) := by simp [realloc]
    rw [asFree]
    exact iff_of_true (free_answers wf pointer) (Or.inl (by omega))
  · rcases pointer with rfl | ⟨b, member, alloc, rfl⟩
    · have asMalloc : h.realloc os 0 size = h.malloc os size := by simp [realloc, zero]
      rw [asMalloc]
      exact malloc_answers_iff sound os 0 word
    · by_cases small : size + 23 < wordMod
      · refine iff_of_true ?_ (Or.inl small)
        rcases realloc_spec sound os member alloc zero small with
          null | ⟨c, h₁, L₁, pre, lo, hi, post, h', step, moved, -⟩
        · rw [null]
          exact answers_null wf _ size
        · have served := moved.served
          have around := moved.around
          have room := served.room
          have notB : c ≠ b := by
            rintro rfl
            exact served.fresh member
          rw [step]
          refine ⟨_, h', _, rfl, moved.freed.wellFormed, Or.inr ⟨c,
            around.mem_freed served.member served.alloc notB, served.alloc, rfl, by omega⟩,
            fun d old used ne => ?_⟩
          have dNotB : d ≠ b := by
            rintro rfl
            exact ne rfl
          have dNotC : d ≠ c := by
            rintro rfl
            exact served.fresh old
          have inL₁ := (served.kept d used dNotC).mpr old
          refine ⟨around.mem_freed inL₁ used dNotB, fun a ge lt => ?_⟩
          exact (moved.freed.payload d (around.outer_of_alloc inL₁ used dNotB) used a ge lt).trans
            (served.payload d old used a ge lt)
      · have nonnull : headerToPayload b.addr ≠ 0 := by simp [headerToPayload, wsize]
        obtain ⟨whenStarved, whenFed⟩ := malloc_wrapped sound os word (Nat.le_of_not_lt small)
        constructor
        · intro answers
          right
          by_contra fed
          obtain ⟨q, h', -, returned, -⟩ := id answers
          have returned₀ := returned
          simp only [realloc, if_neg zero, if_neg nonnull, Option.bind_eq_bind,
            Option.bind_eq_some_iff] at returned₀
          obtain ⟨answer, allocated, rest⟩ := returned₀
          have kept := whenFed fed answer allocated
          rw [if_neg kept] at rest
          obtain ⟨h₂, -, same⟩ := Option.bind_eq_some_iff.mp rest
          have first : answer.1 = q := (Prod.mk.inj (Option.some.inj same)).1
          rw [returned] at answers
          exact kept (first.trans (answers_wrapped word (Nat.le_of_not_lt small) answers))
        · rintro (small' | starved)
          · exact absurd small' small
          · have step : h.realloc os (headerToPayload b.addr) size = some (0, h) := by
              simp [realloc, zero, nonnull, whenStarved starved]
            rw [step]
            exact answers_null wf _ size

/-- `heap_end` is the last block, as the epilogue describes it. -/
def EndKept (h : Heap) (L : Layout) : Prop :=
  ∃ b, L.blocks.getLast? = some b ∧ h.heapEnd = b.addr ∧ L.epiAlloc = b.alloc ∧
    (L.epiMin = true → b.size = minBlockSize)

theorem WellFormed.sound (wf : h.WellFormed L) (start_aligned : h.heapStart % 16 = 8)
    (maxAddr_le : h.maxAddr ≤ wordMod) (kept : h.EndKept L) : h.Sound L :=
  ⟨wf, start_aligned, maxAddr_le, kept⟩

/-- The end is kept in a session without a `free` that loses it, and the other facts always hold. -/
theorem endKept_run {s s' : Session} {calls : List (Call × SbrkAnswers)} (initial : s.Initial)
    (run : Run (fun s call s' => s.step call = some s' ∧ Session.keepsEnd s.heap call.2 call.1 = true) s calls s') :
    ∃ L, s'.heap.WellFormed L ∧ s'.heap.heapStart % 16 = 8 ∧ s'.heap.maxAddr ≤ wordMod ∧ s'.heap.EndKept L := by
  obtain ⟨L, sound, -⟩ := run.invariant Session.Inv initial.inv fun s call s' inv step => inv.step step.2 step.1
  exact ⟨L, sound.toWellFormed, sound.start_aligned, sound.maxAddr_le, sound.last⟩

/-- With the end lost, a request that no block serves ends in a call that does not return. -/
example : (Session.losingCalls.foldlM Session.step Session.booted).map (fun s =>
    (s.heap.malloc Session.granted 5000).isSome) = some false := by decide +kernel

end Heap

end SystemsLabs.Malloc
