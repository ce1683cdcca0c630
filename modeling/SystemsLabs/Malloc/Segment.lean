/-
# SystemsLabs.Malloc.Segment -- no call moves the break out of its segment

Nothing writes `mem_max_addr`, and only `mem_sbrk` writes `mem_brk`, upwards and no further than
`mem_max_addr`.  So this is where the break stays over every call (`Within`), whatever is in the heap
and whatever pointer the call is given.
-/
import SystemsLabs.Malloc.Extend

namespace SystemsLabs.Malloc

set_option autoImplicit false

namespace Heap

variable {h h' h'' : Heap} {os : SbrkAnswers} {granted : Bool} {size block asize p : Nat} {answer : Nat × Heap}

/-- `mem_brk` and `mem_max_addr`. -/
def segment (h : Heap) : Nat × Nat := (h.brk, h.maxAddr)

/-- The break grew, if at all, inside of the segment. -/
structure Within (h h' : Heap) : Prop where
  maxAddr : h'.maxAddr = h.maxAddr
  lower : h.brk ≤ h'.brk
  upper : h'.brk ≤ h.brk ∨ h'.brk ≤ h.maxAddr

theorem Within.of_segment (same : h'.segment = h.segment) : Within h h' := by
  obtain ⟨brk, maxAddr⟩ := Prod.mk.inj same
  exact ⟨maxAddr, brk.ge, .inl brk.le⟩

theorem Within.trans (first : Within h h') (second : Within h' h'') : Within h h'' := by
  obtain ⟨max₁, lower₁, upper₁⟩ := first
  obtain ⟨max₂, lower₂, upper₂⟩ := second
  exact ⟨max₂.trans max₁, lower₁.trans lower₂, by omega⟩

/-! ## What writes only to the heap -/

theorem setWord_segment (h : Heap) (p v : Nat) : (h.setWord p v).segment = h.segment := rfl

theorem setMem_segment (h : Heap) (mem : Theory.ByteMemory.Mem) : segment { h with mem := mem } = h.segment := rfl

theorem setHeapEnd_segment (h : Heap) (p : Nat) : segment { h with heapEnd := p } = h.segment := rfl

theorem writeBlock_segment (h : Heap) (block size : Nat) (prevMin prevAlloc alloc : Bool) :
    (h.writeBlock block size prevMin prevAlloc alloc).segment = h.segment := by
  unfold writeBlock
  dsimp only
  split <;> rfl

theorem pushMinBlock_segment (h : Heap) (block : Nat) : (h.pushMinBlock block).segment = h.segment := by
  unfold pushMinBlock
  dsimp only
  split <;> rfl

theorem push_segment (h : Heap) (block : Nat) : (h.push block).segment = h.segment := by
  unfold push
  dsimp only
  split
  · exact h.pushMinBlock_segment block
  · split <;> rfl

theorem popMinBlock_segment (popped : h.popMinBlock block = some h') : h'.segment = h.segment := by
  unfold popMinBlock at popped
  dsimp only at popped
  split at popped
  · cases popped
    rfl
  split at popped
  · cases popped
    rfl
  obtain ⟨⟨prev, tmp⟩, -, popped⟩ := Option.bind_eq_some_iff.mp popped
  cases popped
  dsimp only
  split <;> rfl

theorem pop_segment (popped : h.pop block = some h') : h'.segment = h.segment := by
  unfold pop at popped
  dsimp only at popped
  split at popped
  · exact popMinBlock_segment popped
  · split_ifs at popped
    all_goals
      cases popped
      rfl

theorem ite_segment {c : Prop} [Decidable c] (isTrue : h'.segment = h.segment) (isFalse : h''.segment = h.segment) :
    (if c then h' else h'').segment = h.segment := by
  split
  · exact isTrue
  · exact isFalse

theorem splitBlock_segment (divided : h.splitBlock block asize = some h') : h'.segment = h.segment := by
  unfold splitBlock at divided
  extract_lets blockSize isLastBlock at divided
  split at divided
  · obtain ⟨h₁, popped, divided⟩ := Option.bind_eq_some_iff.mp divided
    extract_lets h₂ freeBlock h₃ h₄ tmp h₅ at divided
    have kept₂ : h₂.segment = h.segment := (h₁.writeBlock_segment ..).trans (pop_segment popped)
    have kept₃ : h₃.segment = h.segment :=
      ite_segment ((h₂.writeBlock_segment ..).trans kept₂) ((h₂.writeBlock_segment ..).trans kept₂)
    have kept₄ : h₄.segment = h.segment := (h₃.push_segment _).trans kept₃
    have kept₅ : h₅.segment = h.segment := ite_segment ((h₄.setWord_segment ..).trans kept₄) ((h₄.setWord_segment ..).trans kept₄)
    rw [← Option.some.inj divided]
    exact ite_segment ((h₅.setHeapEnd_segment _).trans kept₅) kept₅
  · obtain ⟨h₁, popped, divided⟩ := Option.bind_eq_some_iff.mp divided
    extract_lets h₂ blockNext h₃ h₄ at divided
    have kept₂ : h₂.segment = h.segment := (h₁.writeBlock_segment ..).trans (pop_segment popped)
    have kept₃ : h₃.segment = h.segment := (h₂.setWord_segment ..).trans kept₂
    have kept₄ : h₄.segment = h.segment := ite_segment ((h₃.setWord_segment ..).trans kept₃) kept₃
    rw [← Option.some.inj divided]
    exact ite_segment ((h₄.setHeapEnd_segment _).trans kept₄) kept₄

theorem coalesceBlock_segment (merged : h.coalesceBlock block = some answer) : answer.2.segment = h.segment := by
  unfold coalesceBlock at merged
  extract_lets nextBlock nextSize size c tmp nextNext nnextValid prevBlock prevSize unmarked at merged
  split at merged
  · split at merged
    · obtain ⟨h₁, popped, merged⟩ := Option.bind_eq_some_iff.mp merged
      extract_lets h₂ at merged
      rw [← Option.some.inj merged]
      exact ((h₂.push_segment _).trans (h₁.writeBlock_segment ..)).trans (pop_segment popped)
    · rw [← Option.some.inj merged]
      exact h.push_segment _
  split at merged
  -- case 1
  · rw [← Option.some.inj merged]
    exact h.push_segment _
  split at merged
  -- case 2
  · obtain ⟨h₁, popped, merged⟩ := Option.bind_eq_some_iff.mp merged
    extract_lets h₂ h₃ h₄ h₅ at merged
    have kept₃ : h₃.segment = h.segment :=
      ((h₂.push_segment _).trans (h₁.writeBlock_segment ..)).trans (pop_segment popped)
    have kept₄ : h₄.segment = h.segment := ite_segment ((h₃.setWord_segment ..).trans kept₃) kept₃
    rw [← Option.some.inj merged]
    exact ite_segment ((h₄.setHeapEnd_segment _).trans kept₄) kept₄
  split at merged
  -- case 3
  · split at merged
    · cases merged
    obtain ⟨h₁, popped, merged⟩ := Option.bind_eq_some_iff.mp merged
    extract_lets h₂ at merged
    have kept : unmarked.segment = h.segment := ite_segment (h.setWord_segment ..) rfl
    rw [← Option.some.inj merged]
    exact (((h₂.push_segment _).trans (h₁.writeBlock_segment ..)).trans (pop_segment popped)).trans kept
  -- case 4
  · split at merged
    · cases merged
    obtain ⟨h₁, popped₁, merged⟩ := Option.bind_eq_some_iff.mp merged
    obtain ⟨h₂, popped₂, merged⟩ := Option.bind_eq_some_iff.mp merged
    extract_lets h₃ h₄ h₅ h₆ at merged
    have kept₄ : h₄.segment = h.segment :=
      ((h₃.push_segment _).trans (h₂.writeBlock_segment ..)).trans ((pop_segment popped₂).trans (pop_segment popped₁))
    have kept₅ : h₅.segment = h.segment := ite_segment ((h₄.setWord_segment ..).trans kept₄) kept₄
    rw [← Option.some.inj merged]
    exact ite_segment ((h₅.setHeapEnd_segment _).trans kept₅) kept₅

theorem free_segment (freed : h.free p = some h') : h'.segment = h.segment := by
  unfold free at freed
  split at freed
  · rw [← Option.some.inj freed]
  · extract_lets block size h₁ blockNext h₂ at freed
    obtain ⟨answer, merged, rfl⟩ := Option.map_eq_some_iff.mp freed
    exact (coalesceBlock_segment merged).trans (h.writeBlock_segment ..)

/-! ## What asks for memory -/

theorem memSbrk_within (grown : h.memSbrk granted size = some answer) : Within h answer.2 := by
  unfold memSbrk at grown
  split at grown
  · cases grown
  split at grown
  · cases grown
  next inside =>
    split at grown
    · cases grown
    rw [← Option.some.inj grown]
    exact ⟨rfl, Nat.le_add_right _ _, .inr (Nat.le_of_not_lt inside)⟩

theorem extendHeap_within (extended : h.extendHeap granted size = some answer) : Within h answer.2 := by
  unfold extendHeap at extended
  extract_lets size' at extended
  split at extended
  · rw [← Option.some.inj extended]
    exact .of_segment rfl
  next bp h₁ grown =>
    refine (memSbrk_within grown).trans (.of_segment ?_)
    extract_lets block h₂ h₃ h₄ h₅ h₆ h₇ at extended
    split at extended
    -- no ele
    · rw [← Option.some.inj extended]
      exact (h₂.push_segment _).trans (h₁.writeBlock_segment ..)
    split at extended
    -- any ele
    · have kept₅ : h₅.segment = h₁.segment := ite_segment (h₁.writeBlock_segment ..) (h₁.writeBlock_segment ..)
      rw [← Option.some.inj extended]
      exact (h₅.push_segment _).trans kept₅
    · obtain ⟨h₈, popped, extended⟩ := Option.bind_eq_some_iff.mp extended
      extract_lets h₉ h₁₀ at extended
      rw [← Option.some.inj extended]
      exact ((h₉.push_segment _).trans (h₈.writeBlock_segment ..)).trans (pop_segment popped)

theorem mmInit_within {ok : Bool} (booted : h.mmInit os = some (ok, h')) : Within h h' := by
  cases grown : h.memSbrk os.prologue (2 * wsize) with
  | none =>
      unfold mmInit at booted
      rw [grown] at booted
      rw [← (Prod.mk.inj (Option.some.inj booted)).2]
      exact .of_segment rfl
  | some answer =>
      obtain ⟨start, h₁⟩ := answer
      rw [mmInit_framed grown] at booted
      obtain ⟨⟨block, h₂⟩, extended, isPair⟩ := Option.map_eq_some_iff.mp booted
      obtain ⟨-, rfl⟩ := Prod.mk.inj isPair
      have framed : (h₁.framed start).segment = h₁.segment := rfl
      exact ((memSbrk_within grown).trans (.of_segment framed)).trans (extendHeap_within extended)

/-- **`malloc` stays in the segment.** -/
theorem malloc_within (returned : h.malloc os size = some answer) : Within h answer.2 := by
  unfold malloc at returned
  obtain ⟨h₁, started, returned⟩ := Option.bind_eq_some_iff.mp returned
  have begun : Within h h₁ := by
    unfold ensureInit at started
    split at started
    · obtain ⟨⟨ok, h₂⟩, booted, rfl⟩ := Option.map_eq_some_iff.mp started
      exact mmInit_within booted
    · rw [← Option.some.inj started]
      exact .of_segment rfl
  refine begun.trans ?_
  split at returned
  · rw [← Option.some.inj returned]
    exact .of_segment rfl
  extract_lets asize at returned
  obtain ⟨block, -, returned⟩ := Option.bind_eq_some_iff.mp returned
  split at returned
  · obtain ⟨⟨block, h₂⟩, extended, returned⟩ := Option.bind_eq_some_iff.mp returned
    refine (extendHeap_within extended).trans (.of_segment ?_)
    dsimp only at returned
    split at returned
    · rw [← Option.some.inj returned]
    · obtain ⟨h₃, divided, returned⟩ := Option.bind_eq_some_iff.mp returned
      rw [← Option.some.inj returned]
      exact splitBlock_segment divided
  · obtain ⟨h₃, divided, returned⟩ := Option.bind_eq_some_iff.mp returned
    rw [← Option.some.inj returned]
    exact .of_segment (splitBlock_segment divided)

/-- **`realloc` stays in the segment.** -/
theorem realloc_within (returned : h.realloc os p size = some answer) : Within h answer.2 := by
  unfold realloc at returned
  extract_lets block at returned
  split at returned
  · obtain ⟨h', freed, rfl⟩ := Option.map_eq_some_iff.mp returned
    exact .of_segment (free_segment freed)
  split at returned
  · exact malloc_within returned
  · obtain ⟨⟨newptr, h₁⟩, moved, returned⟩ := Option.bind_eq_some_iff.mp returned
    refine (malloc_within moved).trans (.of_segment ?_)
    dsimp only at returned
    split at returned
    · rw [← Option.some.inj returned]
    · obtain ⟨h₂, freed, returned⟩ := Option.bind_eq_some_iff.mp returned
      rw [← Option.some.inj returned]
      exact (free_segment freed).trans (h₁.setMem_segment _)

end Heap

end SystemsLabs.Malloc
