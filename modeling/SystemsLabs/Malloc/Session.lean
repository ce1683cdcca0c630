/-
# SystemsLabs.Malloc.Session -- `heap_end` over whole runs of the allocator

A `Session` is a heap and the pointers its user holds: those that `malloc`, `calloc` and
`realloc` returned and that were not freed.  `Session.step` is one call, allowed only on
live pointers and for sizes that do not wrap; the system may refuse any extension.

One branch of `coalesce_block` forgets `heap_end`: where the freed block is the last one
and only the block before it is free, the merged block starts before `heap_end`
(`LosesEnd`).  `Freed.sound` shows that this is the only way to lose it.
-/
import SystemsLabs.Malloc.FreeOrder
import SystemsLabs.Malloc.Interface
import SystemsLabs.Theory.Runs

namespace SystemsLabs.Malloc

open SystemsLabs.Theory.Runs

set_option autoImplicit false

namespace Heap

variable {h h' : Heap} {L : Layout} {b : Block} {pre lo hi post : List Block}

/-- `free` of `p` would merge the last block of the heap into the free block before it. -/
def LosesEnd (h : Heap) (p : Nat) : Bool :=
  p ≠ 0 && h.getSize (h.findNext (payloadToHeader p)) = 0 && !h.getPrevAlloc (payloadToHeader p)

theorem losesEnd_iff (wf : h.WellFormed L) (around : Around L.blocks b pre lo hi post) :
    h.LosesEnd (headerToPayload b.addr) = true ↔ lo ≠ [] ∧ hi = [] ∧ post = [] := by
  have closed := wf.closed
  have legal := wf.spaced.legal b around.mem
  rw [around.split] at closed
  obtain ⟨e₁, row, after⟩ := closed_append.mp closed
  obtain ⟨e₀, before, row⟩ := tagged_append.mp row
  obtain ⟨e, low, blockAt, high⟩ := tagged_append.mp row
  have rest : h.Closed b.edge (hi ++ post) L.epiMin L.epiAlloc := closed_append.mpr ⟨e₁, high, after⟩
  have next : h.findNext b.addr = b.edge.addr := by
    rw [findNext, blockAt.getSize legal.isSize]
    rfl
  have nextSize_eq : h.getSize b.edge.addr = nextSize (hi ++ post) := by
    rw [getSize, rest.header, extractSize_pack (rest.nextSize_isSize wf.brk_le)]
  have last : nextSize (hi ++ post) = 0 ↔ hi ++ post = [] := by
    cases shape : hi ++ post with
    | nil => exact ⟨fun _ => rfl, fun _ => rfl⟩
    | cons c cs =>
        rw [shape] at rest
        have := (closed_cons.mp rest).1.size_pos
        exact ⟨fun zero => absurd zero this.ne', fun impossible => by cases impossible⟩
  have prev : h.getPrevAlloc b.addr = lo.isEmpty := by
    rw [blockAt.getPrevAlloc legal.isSize]
    rcases around.low with rfl | ⟨x, rfl, free⟩
    · obtain rfl := low
      rcases List.eq_nil_or_concat' pre with rfl | ⟨front, y, rfl⟩
      · obtain rfl := before
        rfl
      · rw [before.edge_of_snoc]
        exact around.preAlloc y (by simp)
    · obtain rfl := low.2
      exact free
  have back : payloadToHeader (headerToPayload b.addr) = b.addr := by
    simp [payloadToHeader, headerToPayload]
  have nonnull : headerToPayload b.addr ≠ 0 := by simp [headerToPayload, wsize]
  simp only [LosesEnd, back, next, nextSize_eq, prev, last, nonnull, Bool.and_eq_true, decide_eq_true_eq,
    List.append_eq_nil_iff, ne_eq, not_false_eq_true, true_and, Bool.not_eq_true', List.isEmpty_eq_false_iff]
  constructor
  · rintro ⟨noBlocks, nonempty⟩
    exact ⟨nonempty, noBlocks⟩
  · rintro ⟨nonempty, noBlocks⟩
    exact ⟨noBlocks, nonempty⟩

/-- **`free` keeps a sound heap sound**, unless it loses `heap_end`. -/
theorem Freed.sound (freed : Freed h h' L b pre lo hi post) (sound : h.Sound L)
    (around : Around L.blocks b pre lo hi post) (keeps : h.LosesEnd (headerToPayload b.addr) = false) :
    h'.Sound (L.freed b pre lo hi post) := by
  have kept : ¬ (lo ≠ [] ∧ hi = [] ∧ post = []) :=
    (losesEnd_iff sound.toWellFormed around).not.mp (by simp [keeps])
  obtain ⟨c, isLast, heapEnd, status, isMin⟩ := sound.last
  have spaced := sound.toWellFormed.spaced
  refine ⟨freed.wellFormed, freed.heapStart.symm ▸ sound.start_aligned,
    freed.maxAddr.symm ▸ sound.maxAddr_le, ?_⟩
  rw [around.split] at isLast spaced
  by_cases last : post = []
  · subst last
    refine ⟨merged lo b hi, by simp [Layout.freed], ?_⟩
    rw [freed.heapEnd, heapEnd]
    rcases around.high with rfl | ⟨n, rfl, free⟩
    · obtain rfl : lo = [] := by simpa using kept
      obtain rfl : b = c := by simpa using isLast
      refine ⟨rfl, by simp [Layout.freed, merged], fun marked => ?_⟩
      have := isMin (by simpa [Layout.freed] using marked)
      simpa [merged] using this
    · obtain rfl : n = c := by simpa using isLast
      refine ⟨by simp [freedEnd], ?_, fun marked => ?_⟩
      · simp [Layout.freed, status, free, merged]
      · simp [Layout.freed] at marked
  · rw [List.getLast?_append_of_ne_nil _ last] at isLast
    have inPost : c ∈ post := List.mem_of_getLast? isLast
    have nonempty : post.isEmpty = false := by simpa using last
    refine ⟨c, ?_, ?_, ?_, fun marked => isMin ?_⟩
    · exact (List.getLast?_append_of_ne_nil _ last).trans isLast
    · rw [freed.heapEnd, heapEnd]
      rcases around.high with rfl | ⟨n, rfl, -⟩
      · rfl
      · have below : ∀ d ∈ lo ++ b :: [n], d.addr ≠ c.addr := by
          intro d member
          have inRow : d ∈ pre ++ (lo ++ b :: [n]) := List.mem_append_right _ member
          have gap := (List.pairwise_append.mp spaced.ordered).2.2 d inRow c inPost
          have := (spaced.legal d (List.mem_append_left _ inRow)).size_pos
          omega
        rw [freedEnd, if_neg]
        rintro (same | ⟨-, same⟩)
        · exact below n (by simp) same
        · exact below b (by simp) same
    · simpa [Layout.freed, nonempty] using status
    · simpa [Layout.freed, nonempty] using marked

/-! ## Sessions -/

/-- `heap_end` is the last block of the heap, and on a free list if it is free. -/
structure HeapEndLast (h : Heap) : Prop where
  isLast : (h.partition.map BlockInfo.addr).getLast? = some h.heapEnd
  epilogue : h.findNext h.heapEnd + wsize = h.brk
  listed : h.getAlloc h.heapEnd = false → ∃ bin l, h.Linked bin l ∧ h.heapEnd ∈ l

theorem infos_addr (e : Edge) (bs : List Block) : (infos e bs).map BlockInfo.addr = bs.map Block.addr := by
  induction bs generalizing e with
  | nil => rfl
  | cons b bs ih => rw [infos, List.map_cons, List.map_cons, ih]

theorem Sound.heapEndLast (sound : h.Sound L) : h.HeapEndLast := by
  obtain ⟨pre, b, e₀, split, heapEnd, -, legal, -, blockAt, top, -⟩ := sound.lastBlock
  have member : b ∈ L.blocks := by simp [split]
  refine ⟨?_, ?_, fun free => ?_⟩
  · rw [sound.toWellFormed.partition_eq, infos_addr, split, heapEnd]
    simp
  · rw [heapEnd, findNext, blockAt.getSize legal.isSize, top]
  · rw [heapEnd, blockAt.getAlloc legal.isSize] at free
    obtain ⟨lists, index⟩ := sound.indexed
    exact ⟨b.bin, lists b.bin, index.linked b.bin,
      (index.holds b.bin).mem_iff.mpr (mem_freeIn.mpr ⟨b, member, free, rfl, heapEnd.symm⟩)⟩

end Heap

/-- A call of the allocator's interface. -/
inductive Call where
  | malloc (size : Nat)
  | free (p : Nat)
  | realloc (p size : Nat)
  | calloc (elements size : Nat)
deriving DecidableEq, Repr

/-- A heap and the pointers its user holds. -/
structure Session where
  heap : Heap
  live : List Nat

namespace Session

/-- Pointers are live and sizes do not wrap. -/
def Allowed (s : Session) : Call → Prop
  | .malloc size => size + 23 < wordMod
  | .free p => p ∈ s.live
  | .realloc p size => (p = 0 ∨ p ∈ s.live) ∧ size + 23 < wordMod
  | .calloc elements size => elements * size + 23 < wordMod

instance (s : Session) : (c : Call) → Decidable (s.Allowed c)
  | .malloc size => inferInstanceAs (Decidable (size + 23 < wordMod))
  | .free p => inferInstanceAs (Decidable (p ∈ s.live))
  | .realloc p size => inferInstanceAs (Decidable ((p = 0 ∨ p ∈ s.live) ∧ size + 23 < wordMod))
  | .calloc elements size => inferInstanceAs (Decidable (elements * size + 23 < wordMod))

/-- The pointer returned, if it is not null, is live. -/
def gain (live : List Nat) (p : Nat) : List Nat := if p = 0 then live else p :: live

/-- One call, with the system's answers to its requests for memory. -/
def exec (s : Session) (os : SbrkAnswers) : Call → Option Session
  | .malloc size => (s.heap.malloc os size).map fun answer => ⟨answer.2, gain s.live answer.1⟩
  | .free p => (s.heap.free p).map fun h => ⟨h, s.live.filter (· ≠ p)⟩
  | .realloc p size => (s.heap.realloc os p size).map fun answer =>
      ⟨answer.2, gain (if size = 0 ∨ answer.1 ≠ 0 then s.live.filter (· ≠ p) else s.live) answer.1⟩
  | .calloc elements size => (s.heap.calloc os elements size).map fun answer =>
      ⟨answer.2, gain s.live answer.1⟩

/-- An allowed call that returns. -/
def step (s : Session) (call : Call × SbrkAnswers) : Option Session :=
  if s.Allowed call.1 then s.exec call.2 call.1 else none

/-- No `free`, of the call itself or at the end of `realloc`, loses `heap_end`. -/
def keepsEnd (h : Heap) (os : SbrkAnswers) : Call → Bool
  | .malloc _ => true
  | .free p => !h.LosesEnd p
  | .realloc p size =>
      if size = 0 then !h.LosesEnd p
      else
        match h.malloc os size with
        | some (q, h) => q = 0 || !h.LosesEnd p
        | none => true
  | .calloc _ _ => true

/-- A session just after a successful `mm_init` on a heap segment at a double word. -/
def Initial (s : Session) : Prop :=
  s.live = [] ∧ ∃ (h : Heap) (os : SbrkAnswers), h.brk % 16 = 0 ∧ h.maxAddr ≤ wordMod ∧
    h.mmInit os = some (true, s.heap)

/-- The heap is sound and the user's pointers are live in it. -/
def Inv (s : Session) : Prop := ∃ L : Layout, s.heap.Sound L ∧ ∀ p ∈ s.live, L.Live p

theorem Initial.inv {s : Session} (initial : s.Initial) : s.Inv := by
  obtain ⟨noBlocks, h, os, aligned, maxAddr_le, booted⟩ := initial
  obtain ⟨ok, h', step, sound⟩ := Heap.mmInit_spec os aligned maxAddr_le
  rw [booted] at step
  obtain ⟨rfl, rfl⟩ : true = ok ∧ s.heap = h' := by simpa using step
  obtain ⟨m, -, sound, -⟩ := sound rfl
  exact ⟨_, sound, by simp [noBlocks]⟩

variable {s s' : Session} {h' : Heap} {L L' : Layout} {os : SbrkAnswers}

theorem gain_null (live : List Nat) : gain live 0 = live := if_pos rfl

theorem gain_payload (live : List Nat) (a : Nat) :
    gain live (headerToPayload a) = headerToPayload a :: live :=
  if_neg (by simp [headerToPayload, wsize])

section Calls

variable {h : Heap} {live : List Nat} {b c : Block} {p size : Nat} {answer : Nat × Heap}

/-- After an allocation the old pointers and the new one are live. -/
theorem served_live (served : h.Served h' L L' c size) (old : ∀ p ∈ live, L.Live p) :
    ∀ p ∈ gain live (headerToPayload c.addr), L'.Live p := by
  rw [gain_payload]
  intro p member
  rcases List.mem_cons.mp member with rfl | inLive
  · exact ⟨c, served.member, served.alloc, rfl⟩
  · obtain ⟨d, memD, used, rfl⟩ := old p inLive
    have ne : d ≠ c := by
      rintro rfl
      exact served.fresh memD
    exact ⟨d, (served.kept d used ne).mpr memD, used, rfl⟩

theorem malloc_inv (sound : h.Sound L) (old : ∀ p ∈ live, L.Live p) (small : size + 23 < wordMod)
    (returned : h.malloc os size = some answer) : Inv ⟨answer.2, gain live answer.1⟩ := by
  rcases Heap.malloc_spec sound os small with null | ⟨h', L', c, step, served⟩
  · obtain rfl : (0, h) = answer := by simpa using null.symm.trans returned
    exact ⟨L, sound, by simpa [gain_null] using old⟩
  · obtain rfl : (headerToPayload c.addr, h') = answer := by simpa using step.symm.trans returned
    exact ⟨L', served.sound, served_live served old⟩

theorem calloc_inv {elements : Nat} (sound : h.Sound L) (old : ∀ p ∈ live, L.Live p)
    (small : elements * size + 23 < wordMod) (returned : h.calloc os elements size = some answer) :
    Inv ⟨answer.2, gain live answer.1⟩ := by
  rcases Heap.calloc_spec sound os small with null | ⟨h', L', c, step, served⟩
  · obtain rfl : (0, h) = answer := by simpa using null.symm.trans returned
    exact ⟨L, sound, by simpa [gain_null] using old⟩
  · obtain rfl : (headerToPayload c.addr, h') = answer := by simpa using step.symm.trans returned
    exact ⟨L', served.sound, served_live served.toServed old⟩

theorem free_inv (sound : h.Sound L) (old : ∀ q ∈ live, L.Live q) (here : L.Live p)
    (keeps : h.LosesEnd p = false) (freed : h.free p = some h') :
    Inv ⟨h', live.filter (· ≠ p)⟩ := by
  obtain ⟨b, member, used, rfl⟩ := here
  obtain ⟨pre, lo, hi, post, around⟩ := exists_around sound.coalesced member
  obtain ⟨h₁, step, done⟩ := Heap.free_spec sound.toWellFormed around used
  obtain rfl : h₁ = h' := by simpa using step.symm.trans freed
  refine ⟨_, done.sound sound around keeps, fun q inRest => ?_⟩
  obtain ⟨inLive, ne⟩ := List.mem_filter.mp inRest
  exact around.live_freed (old q inLive) (by simpa using ne)

/-- `realloc` of a live pointer to a size other than 0. -/
theorem realloc_inv (sound : h.Sound L) (old : ∀ q ∈ live, L.Live q) (here : L.Live p)
    (nonzero : size ≠ 0) (small : size + 23 < wordMod)
    (keeps : keepsEnd h os (.realloc p size) = true) (returned : h.realloc os p size = some answer) :
    Inv ⟨answer.2, gain (if size = 0 ∨ answer.1 ≠ 0 then live.filter (· ≠ p) else live) answer.1⟩ := by
  obtain ⟨b, member, used, rfl⟩ := here
  rcases Heap.realloc_spec sound os member used nonzero small with
    null | ⟨c, h₁, L₁, pre, lo, hi, post, h', step, moved, -⟩
  · obtain rfl : (0, h) = answer := by simpa using null.symm.trans returned
    exact ⟨L, sound, by simpa [gain_null, nonzero] using old⟩
  · obtain rfl : (headerToPayload c.addr, h') = answer := by simpa using step.symm.trans returned
    have nonnull : headerToPayload c.addr ≠ 0 := by simp [headerToPayload, wsize]
    obtain ⟨h₀, allocated, wf₀⟩ := moved.malloc
    have served := moved.served
    have around := moved.around
    -- the copy changes nothing that the loss depends on
    have keeps₀ : h₀.LosesEnd (headerToPayload b.addr) = false := by
      simpa [keepsEnd, nonzero, allocated, nonnull] using keeps
    have keeps₁ : h₁.LosesEnd (headerToPayload b.addr) = false := by
      rw [Bool.eq_false_iff] at keeps₀ ⊢
      exact fun lost => keeps₀ ((Heap.losesEnd_iff wf₀ around).mpr
        ((Heap.losesEnd_iff served.sound.toWellFormed around).mp lost))
    have sound' := moved.freed.sound served.sound around keeps₁
    rw [if_pos (Or.inr nonnull), gain_payload]
    have live₁ := served_live served old
    rw [gain_payload] at live₁
    refine ⟨_, sound', fun q inNew => around.live_freed (live₁ q ?_) ?_⟩
    · rw [List.mem_cons] at inNew ⊢
      exact inNew.imp_right fun m => (List.mem_filter.mp m).1
    · rcases List.mem_cons.mp inNew with rfl | inRest
      · intro same
        have sameBlock := served.sound.toWellFormed.spaced.addr_injective around.mem served.member
          (by simpa [headerToPayload] using same)
        exact served.fresh (sameBlock ▸ member)
      · simpa using (List.mem_filter.mp inRest).2

end Calls

/-- **One call** keeps the heap sound, unless it loses `heap_end`. -/
theorem Inv.step {call : Call × SbrkAnswers} (inv : s.Inv)
    (keeps : keepsEnd s.heap call.2 call.1 = true) (stepped : s.step call = some s') : s'.Inv := by
  obtain ⟨L, sound, live⟩ := inv
  obtain ⟨call, os⟩ := call
  have allowed : s.Allowed call := by
    by_contra forbidden
    simp [Session.step, forbidden] at stepped
  rw [Session.step, if_pos allowed] at stepped
  cases call with
  | malloc size =>
      obtain ⟨answer, returned, rfl⟩ := Option.map_eq_some_iff.mp stepped
      exact malloc_inv sound live allowed returned
  | free p =>
      obtain ⟨h', freed, rfl⟩ := Option.map_eq_some_iff.mp stepped
      exact free_inv sound live (live p allowed) (by simpa [keepsEnd] using keeps) freed
  | realloc p size =>
      obtain ⟨pointer, small⟩ := allowed
      obtain ⟨answer, returned, rfl⟩ := Option.map_eq_some_iff.mp stepped
      by_cases zero : size = 0
      · subst zero
        simp only [Heap.realloc, if_true, Option.map_eq_some_iff] at returned
        obtain ⟨h', freed, rfl⟩ := returned
        rw [gain_null, if_pos (Or.inl rfl)]
        rcases pointer with rfl | isLive
        · obtain rfl : s.heap = h' := by simpa [Heap.free] using freed
          exact ⟨L, sound, fun p member => live p (List.mem_filter.mp member).1⟩
        · exact free_inv sound live (live p isLive) (by simpa [keepsEnd] using keeps) freed
      · rcases pointer with rfl | isLive
        · have asMalloc : s.heap.realloc os 0 size = s.heap.malloc os size := by
            simp [Heap.realloc, zero]
          refine malloc_inv sound (fun q member => live q ?_) small (asMalloc ▸ returned)
          split at member
          · exact (List.mem_filter.mp member).1
          · exact member
        · exact realloc_inv sound live (live p isLive) zero small keeps returned
  | calloc elements size =>
      obtain ⟨answer, returned, rfl⟩ := Option.map_eq_some_iff.mp stepped
      exact calloc_inv sound live allowed returned

/-- **`heap_end` is the last block** in every state that a session reaches without a `free`
that loses it. -/
theorem heapEnd_last {s s' : Session} {calls : List (Call × SbrkAnswers)} (initial : s.Initial)
    (run : Run (fun s call s' => s.step call = some s' ∧ keepsEnd s.heap call.2 call.1 = true)
      s calls s') : s'.heap.HeapEndLast := by
  have inv : s'.Inv := run.invariant Inv initial.inv fun s call s' inv step => inv.step step.2 step.1
  obtain ⟨L, sound, -⟩ := inv
  exact sound.heapEndLast

/-! A session on a heap segment at 4096, with every extension granted. -/

def granted : SbrkAnswers := ⟨true, true, true⟩

def blank : Heap where
  mem := fun _ => 0
  brk := 4096
  maxAddr := 1000000
  heapStart := 0
  heapEnd := 0
  segList := fun _ => 0
  minList := fun _ => 0

def booted : Session := ⟨((blank.mmInit granted).map Prod.snd).getD blank, []⟩

theorem booted_answer : blank.mmInit granted = some (true, booted.heap) := by
  have succeeded : (blank.mmInit granted).map Prod.fst = some true := by decide +kernel
  unfold booted
  cases answer : blank.mmInit granted with
  | none =>
      rw [answer] at succeeded
      cases succeeded
  | some answer' =>
      rw [answer] at succeeded
      obtain ⟨ok, h⟩ := answer'
      obtain rfl : ok = true := by simpa using succeeded
      rfl

theorem booted_initial : booted.Initial :=
  ⟨rfl, blank, granted, rfl, by decide, booted_answer⟩

/-- Two halves of the chunk are allocated and freed again, the last one last. -/
def losingCalls : List (Call × SbrkAnswers) :=
  [(.malloc 2040, granted), (.malloc 2040, granted), (.free 4112, granted), (.free 6160, granted)]

theorem heapEnd_last_counterexample : ¬ ∀ (s s' : Session) (calls : List (Call × SbrkAnswers)),
    s.Initial → Run (fun s call s' => s.step call = some s') s calls s' → s'.heap.HeapEndLast := by
  intro claim
  have lost : (losingCalls.foldlM Session.step booted).map (fun s =>
      ((s.heap.partition.map BlockInfo.addr).getLast?, s.heap.heapEnd)) = some (some 4104, 6152) := by
    decide +kernel
  obtain ⟨s', computed, ends⟩ := Option.map_eq_some_iff.mp lost
  obtain ⟨last, heapEnd⟩ := Prod.mk.inj ends
  have isLast := (claim _ _ _ booted_initial (Run.of_foldlM computed)).isLast
  rw [last, heapEnd] at isLast
  cases isLast

/-- The same two blocks, the last one freed first. -/
def keepingCalls : List (Call × SbrkAnswers) :=
  [(.malloc 2040, granted), (.malloc 2040, granted), (.free 6160, granted), (.free 4112, granted)]

theorem heapEnd_last_keeping : ∃ s', Run (fun s call s' => s.step call = some s' ∧
    keepsEnd s.heap call.2 call.1 = true) booted keepingCalls s' ∧ s'.heap.HeapEndLast := by
  have returns : (keepingCalls.foldlM (fun s call =>
      if keepsEnd s.heap call.2 call.1 = true then s.step call else none) booted).isSome = true := by
    decide +kernel
  obtain ⟨s', computed⟩ := Option.isSome_iff_exists.mp returns
  have run : Run (fun s call s' => s.step call = some s' ∧ keepsEnd s.heap call.2 call.1 = true)
      booted keepingCalls s' := (Run.of_guarded computed).mono fun _ _ _ step => step.symm
  exact ⟨s', run, heapEnd_last booted_initial run⟩

end Session

end SystemsLabs.Malloc
