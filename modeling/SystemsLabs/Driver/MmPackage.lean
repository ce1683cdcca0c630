/-
# SystemsLabs.Driver.MmPackage -- the package of `mm.c`

`mm.c` keeps the driver's contract on an intact heap in which every payload has its block in use
(`Keeps`).  The calls that it is known to serve are those that do not lose `heap_end`
(`Session.keepsEnd`), and all sizes that do not wrap.  Where the run has only such calls the driver
accepts the allocator, or stops where `mem_sbrk` refuses (`mm_accepted`); with expensive checks,
`mm_checkheap` may still reject an intact heap.
-/
import SystemsLabs.Driver.Verdict
import SystemsLabs.Malloc.CheckHeap
import SystemsLabs.Malloc.Segment

namespace SystemsLabs.Driver

set_option autoImplicit false

open Theory.ByteMemory
open Malloc (Block Layout SbrkAnswers Around headerToPayload wordMod wsize Session)
open Malloc.Heap (Served Freed Moved Within)

/-- The heap of the allocator, and where the segment starts. -/
structure Mm where
  heap : Malloc.Heap
  lo : Nat

namespace Mm

/-- What the driver calls. -/
def package : Package Mm SbrkAnswers where
  memResetBrk s := { s with heap := { s.heap with brk := s.lo } }
  memHeapLo s := UInt64.ofNat s.lo
  memHeapHi s := UInt64.ofNat s.heap.brk - 1
  memRead s a := s.heap.mem a.toNat
  memWrite s a v := { s with heap := { s.heap with mem := Function.update s.heap.mem a.toNat v } }
  mmInit s os := (s.heap.mmInit os).map fun answer => (answer.1, { s with heap := answer.2 })
  mmMalloc s os size := (s.heap.malloc os size.toNat).map fun answer =>
    (UInt64.ofNat answer.1, { s with heap := answer.2 })
  mmFree s p := (s.heap.free p.toNat).map fun h => { s with heap := h }
  mmRealloc s os p size := (s.heap.realloc os p.toNat size.toNat).map fun answer =>
    (UInt64.ofNat answer.1, { s with heap := answer.2 })
  mmCheckheap s := (s.heap.mmCheckheap s.lo).map fun verdict => verdict.isOk

/-- The calls that do not lose `heap_end`. -/
def safe (s : Mm) (os : SbrkAnswers) : MmCall → Bool
  | .malloc size => Session.keepsEnd s.heap os (.malloc size.toNat)
  | .free p => Session.keepsEnd s.heap os (.free p.toNat)
  | .realloc p size => Session.keepsEnd s.heap os (.realloc p.toNat size.toNat)

/-! ## The payloads of a heap -/

/-- A payload in its block. -/
structure Held (h : Malloc.Heap) (b : Block) (p : Addr) (bytes : List UInt8) : Prop where
  addr : p.toNat = headerToPayload b.addr
  nonempty : bytes ≠ []
  room : bytes.length + 8 ≤ b.size
  stored : Stored h.mem p.toNat bytes

/-- Every payload has a block in use. -/
def Keeps (h : Malloc.Heap) (L : Layout) (A : Payloads) : Prop :=
  ∀ p bytes, A p = some bytes → ∃ b ∈ L.blocks, b.alloc = true ∧ Held h b p bytes

section Payloads

variable {h h' h₁ : Malloc.Heap} {L L' L₁ : Layout} {A : Payloads} {b c : Block} {p q : Addr}
  {bytes old : List UInt8} {pre lo hi post : List Block} {size : Nat} {os : SbrkAnswers}

theorem Held.start (held : Held h b p bytes) : p.toNat = b.addr + 8 := held.addr

theorem Held.congr (held : Held h b p bytes) (same : ∀ a, b.addr + 8 ≤ a → a < b.addr + b.size → h'.mem a = h.mem a) :
    Held h' b p bytes := by
  have start := held.start
  have room := held.room
  exact { held with stored := held.stored.congr fun x lo hi => same x (by omega) (by omega) }

theorem Keeps.drop (keeps : Keeps h L A) (p : Addr) : Keeps h L (Function.update A p none) := by
  intro q bytes payload
  by_cases here : q = p
  · subst here
    rw [Function.update_self] at payload
    cases payload
  · rw [Function.update_of_ne here] at payload
    exact keeps q bytes payload

/-- **A new payload** in the block that `malloc` took. -/
theorem Keeps.serve (keeps : Keeps h L A) (served : Served h h' L L' c size) (positive : size ≠ 0)
    (isNew : p.toNat = headerToPayload c.addr) :
    A p = none ∧ Keeps h' L' (Function.update A p (some (loaded h'.mem p.toNat size))) := by
  have spaced := served.sound.toWellFormed.spaced
  have other : ∀ d ∈ L.blocks, d ≠ c := by
    rintro d old rfl
    exact served.fresh old
  constructor
  · by_contra present
    obtain ⟨bytes, payload⟩ := Option.ne_none_iff_exists'.mp present
    obtain ⟨d, old, used, held⟩ := keeps p bytes payload
    have still : d ∈ L'.blocks := (served.kept d used (other d old)).mpr old
    have start := held.start
    simp only [headerToPayload, wsize] at isNew
    exact other d old (spaced.addr_injective served.member still (by omega))
  · intro q bytes payload
    by_cases here : q = p
    · subst here
      rw [Function.update_self] at payload
      obtain rfl := Option.some.inj payload
      refine ⟨c, served.member, served.alloc, isNew, ?_, ?_, stored_loaded _ _ _⟩
      · rw [← List.length_pos_iff_ne_nil, length_loaded]
        exact Nat.pos_of_ne_zero positive
      · rw [length_loaded]
        exact served.room
    · rw [Function.update_of_ne here] at payload
      obtain ⟨d, old, used, held⟩ := keeps q bytes payload
      exact ⟨d, (served.kept d used (other d old)).mpr old, used, held.congr (served.payload d old used)⟩

/-- **A payload less** after the `free` of its block. -/
theorem Keeps.release (keeps : Keeps h L A) (around : Around L.blocks b pre lo hi post)
    (freed : Freed h h' L b pre lo hi post) (here : p.toNat = headerToPayload b.addr) :
    Keeps h' (L.freed b pre lo hi post) (Function.update A p none) := by
  intro q bytes payload
  by_cases isP : q = p
  · subst isP
    rw [Function.update_self] at payload
    cases payload
  · rw [Function.update_of_ne isP] at payload
    obtain ⟨d, member, used, held⟩ := keeps q bytes payload
    have other : d ≠ b := by
      rintro rfl
      exact isP (UInt64.toNat_inj.mp (held.addr.trans here.symm))
    exact ⟨d, around.mem_freed member used other, used,
      held.congr (freed.payload d (around.outer_of_alloc member used other) used)⟩

/-- **A payload moved** by `realloc`. -/
theorem Keeps.move (keeps : Keeps h L A) (moved : Moved h h' L os b c size h₁ L₁ pre lo hi post) (positive : size ≠ 0)
    (payload : A p = some old) (here : p.toNat = headerToPayload b.addr) (isNew : q.toNat = headerToPayload c.addr) :
    Function.update A p none q = none ∧ Keeps h' (L₁.freed b pre lo hi post)
      (Function.update (Function.update A p none) q (some (loaded h₁.mem q.toNat size))) := by
  obtain ⟨fresh, keeps₁⟩ := keeps.serve moved.served positive isNew
  have other : q ≠ p := by
    rintro rfl
    rw [fresh] at payload
    cases payload
  refine ⟨(Function.update_of_ne other ..).trans fresh, ?_⟩
  rw [Function.update_comm other.symm]
  exact keeps₁.release moved.around moved.freed here

/-- The copy brings the old contents along. -/
theorem Held.copied {h₀ : Malloc.Heap} (held : Held h b p old) (member : b ∈ L.blocks) (used : b.alloc = true)
    (served : Served h h₀ L L₁ c size) (isNew : q.toNat = headerToPayload c.addr)
    (isCopy : h₁ = { h₀ with
      mem := copy h₀.mem (headerToPayload c.addr) (headerToPayload b.addr) (min size (b.size - 8)) }) :
    Copied old (loaded h₁.mem q.toNat size) := by
  have room := held.room
  refine held.stored.copied (stored_loaded _ _ _) fun i below => ?_
  rw [length_loaded] at below
  rw [isCopy, isNew, held.addr]
  have fromOld : h₀.mem (headerToPayload b.addr + i) = h.mem (headerToPayload b.addr + i) :=
    served.payload b member used _ (by simp only [headerToPayload, wsize]; omega)
      (by simp only [headerToPayload, wsize]; omega)
  exact (copy_inside _ _ _ _ (by omega)).trans fromOld

/-- The copy changes nothing that the loss of `heap_end` depends on. -/
theorem moved_sound (moved : Moved h h' L os b c size h₁ L₁ pre lo hi post) (positive : size ≠ 0)
    (keepsEnd : Session.keepsEnd h os (.realloc (headerToPayload b.addr) size) = true) :
    h'.Sound (L₁.freed b pre lo hi post) := by
  obtain ⟨h₀, allocated, wf₀⟩ := moved.malloc
  have served := moved.served
  have nonnull : headerToPayload c.addr ≠ 0 := by simp [headerToPayload, wsize]
  have keeps₀ : h₀.LosesEnd (headerToPayload b.addr) = false := by
    simpa [Session.keepsEnd, positive, allocated, nonnull] using keepsEnd
  have keeps₁ : h₁.LosesEnd (headerToPayload b.addr) = false := by
    rw [Bool.eq_false_iff] at keeps₀ ⊢
    exact fun lost => keeps₀ ((Malloc.Heap.losesEnd_iff wf₀ moved.around).mpr
      ((Malloc.Heap.losesEnd_iff served.sound.toWellFormed moved.around).mp lost))
  exact moved.freed.sound served.sound moved.around keeps₁

end Payloads

/-! ## The invariant -/

/-- The segment is where user addresses are. -/
structure Mapped (s : Mm) : Prop where
  start : 0 < s.lo
  aligned : s.lo % 16 = 0
  room : s.lo ≤ s.heap.maxAddr
  user : s.heap.maxAddr ≤ 2 ^ 63

structure Holds (s : Mm) (A : Payloads) : Prop extends Mapped s where
  brk_le : s.heap.brk ≤ s.heap.maxAddr
  layout : ∃ L, s.heap.Intact s.lo L ∧ Keeps s.heap L A

variable {s : Mm} {h' : Malloc.Heap} {L L' : Layout} {A A' : Payloads} {p q : Addr} {bytes bytes' : List UInt8}
  {os : SbrkAnswers} {size : UInt64}

/-- The state after a call that kept the front of the heap. -/
theorem Holds.next (holds : s.Holds A) (intact : s.heap.Intact s.lo L) (within : Within s.heap h')
    (fronted : Session.Fronted s.heap h') (sound : h'.Sound L') (keeps : Keeps h' L' A') :
    Holds { s with heap := h' } A' := by
  have brk_le := holds.brk_le
  have maxAddr := within.maxAddr
  have prologue : h'.word s.lo = s.heap.word s.lo := Malloc.Heap.word_congr fun a _ lt => fronted.front a (by
    rw [intact.start]
    exact lt)
  refine ⟨⟨holds.start, holds.aligned, maxAddr.ge.trans' holds.room, maxAddr.le.trans holds.user⟩, ?_, L',
    ⟨sound, fronted.heapStart.trans intact.start, prologue.trans intact.prologue⟩, keeps⟩
  rcases within.upper with same | inside
  · exact (same.trans brk_le).trans maxAddr.ge
  · exact inside.trans maxAddr.ge

/-- Where the blocks lie. -/
theorem Holds.blockIn (holds : s.Holds A) (intact : s.heap.Intact s.lo L) {b : Block} (member : b ∈ L.blocks) :
    s.lo + 8 ≤ b.addr ∧ b.addr % 16 = 8 ∧ b.addr + b.size + 8 ≤ s.heap.brk := by
  obtain ⟨e', row, top, -⟩ := intact.toSound.toWellFormed.closed
  obtain ⟨ge, gap, le, -, -⟩ := row.bounds.2.2 b member
  have start := intact.start
  have aligned := holds.aligned
  have first : (s.heap.startEdge L).addr = s.heap.heapStart := rfl
  simp only [wsize] at top start
  omega

theorem Holds.bounds (holds : s.Holds A) (payload : A p = some bytes) :
    s.lo + 16 ≤ p.toNat ∧ p.toNat % 16 = 0 ∧ p.toNat + bytes.length + 8 ≤ s.heap.brk := by
  obtain ⟨L, intact, keeps⟩ := holds.layout
  obtain ⟨b, member, -, held⟩ := keeps p bytes payload
  obtain ⟨lower, aligned, upper⟩ := holds.blockIn intact member
  have start := held.start
  have room := held.room
  omega

theorem Holds.brk_lt (holds : s.Holds A) : s.heap.brk < 2 ^ 64 := by
  have := holds.brk_le
  have := holds.user
  omega

theorem Holds.brk_pos (holds : s.Holds A) : 0 < s.heap.brk := by
  obtain ⟨L, intact, -⟩ := holds.layout
  obtain ⟨e', -, top, -⟩ := intact.toSound.toWellFormed.closed
  simp only [wsize] at top
  omega

theorem Holds.byteAt (holds : s.Holds A) (payload : A p = some bytes) {i : Nat} (below : i < bytes.length) :
    (p + UInt64.ofNat i).toNat = p.toNat + i := by
  have upper := (holds.bounds payload).2.2
  have fits := holds.brk_lt
  exact toNat_byteAt (by omega)

theorem Holds.placed (holds : s.Holds A) (payload : A p = some bytes) : Placed package s p bytes := by
  obtain ⟨L, intact, keeps⟩ := holds.layout
  obtain ⟨b, member, -, held⟩ := keeps p bytes payload
  obtain ⟨lower, aligned, upper⟩ := holds.bounds payload
  exact .of_toNat rfl rfl holds.brk_lt holds.start held.nonempty aligned (by omega) (by omega)

/-- The driver writes into a payload. -/
theorem Holds.write (holds : s.Holds A) (payload : A p = some bytes) {i : Nat} (below : i < bytes.length) (v : UInt8) :
    Holds { s with heap := { s.heap with mem := Function.update s.heap.mem (p.toNat + i) v } }
      (Function.update A p (some (bytes.set i v))) := by
  obtain ⟨L, intact, keeps⟩ := holds.layout
  obtain ⟨b, member, used, held⟩ := keeps p bytes payload
  have start := held.start
  have room := held.room
  have same : ∀ a, (a < b.addr + 8 ∨ b.addr + b.size ≤ a) →
      Function.update s.heap.mem (p.toNat + i) v a = s.heap.mem a := fun a out => Function.update_of_ne (by omega) ..
  have sound := intact.toSound.writePayload member used same
  have fronted : Session.Fronted s.heap { s.heap with mem := Function.update s.heap.mem (p.toNat + i) v } :=
    ⟨rfl, fun a lt => same a (.inl (by
      have := intact.toSound.heapStart_le member
      omega))⟩
  refine holds.next intact (.of_segment (Malloc.Heap.setMem_segment ..)) fronted sound fun q bytes' payload' => ?_
  by_cases here : q = p
  · subst here
    rw [Function.update_self] at payload'
    obtain rfl := Option.some.inj payload'
    refine ⟨b, member, used, held.addr, ?_, ?_, held.stored.write below v⟩
    · rw [ne_eq, List.set_eq_nil_iff]
      exact held.nonempty
    · rw [List.length_set]
      exact room
  · rw [Function.update_of_ne here] at payload'
    obtain ⟨d, memD, usedD, heldD⟩ := keeps q bytes' payload'
    have spaced := intact.toSound.toWellFormed.spaced
    have other : d ≠ b := by
      rintro rfl
      exact here (UInt64.toNat_inj.mp (heldD.addr.trans held.addr.symm))
    have apart := (spaced.apart member memD).resolve_left other
    exact ⟨d, memD, usedD, heldD.congr fun a lo hi => same a (by omega)⟩

/-! ## The calls -/

def limit : UInt64 := 0xFFFFFFFFFFFFFFE8

theorem small_limit (small : size ≤ limit) : size.toNat + 23 < wordMod := by
  have isLimit : limit.toNat = 0xFFFFFFFFFFFFFFE8 := rfl
  rw [UInt64.le_iff_toNat_le, isLimit] at small
  unfold wordMod
  omega

theorem nonzero (positive : size ≠ 0) : size.toNat ≠ 0 := fun isZero => positive (UInt64.toNat_inj.mp isZero)

/-- A pointer that the allocator returns. -/
theorem toNat_payload {h : Malloc.Heap} {b : Block} (sound : h.Sound L) (member : b ∈ L.blocks) :
    (UInt64.ofNat (headerToPayload b.addr)).toNat = headerToPayload b.addr := by
  have legal := sound.toWellFormed.spaced.legal b member
  have fits := legal.fits
  have wide := legal.le_size
  refine UInt64.toNat_ofNat_of_lt' (Nat.lt_of_lt_of_le (?_ : _ < wordMod) (Nat.le_refl _))
  simp only [headerToPayload, wsize]
  omega

theorem mmMalloc_spec (os : SbrkAnswers) (holds : s.Holds A) (positive : size ≠ 0) (small : size ≤ limit) :
    package.mmMalloc s os size = some (0, s) ∨ ∃ p s', package.mmMalloc s os size = some (p, s') ∧ A p = none ∧
      ∃ bytes, bytes.length = size.toNat ∧ s'.Holds (Function.update A p (some bytes)) := by
  obtain ⟨L, intact, keeps⟩ := holds.layout
  rcases Malloc.Heap.malloc_inside intact.toSound os (small_limit small) with refused | ⟨h', L', c, step, served⟩
  · refine .inl ?_
    show Option.map _ (s.heap.malloc os size.toNat) = _
    rw [refused]
    rfl
  · have isNew := toNat_payload served.sound served.member
    obtain ⟨fresh, keeps'⟩ := keeps.serve served.toServed (nonzero positive) isNew
    have within : Within s.heap h' := Malloc.Heap.malloc_within step
    refine .inr ⟨_, { s with heap := h' }, ?_, fresh, _, length_loaded,
      holds.next intact within ⟨served.heapStart, served.front⟩ served.sound keeps'⟩
    show Option.map _ (s.heap.malloc os size.toNat) = _
    rw [step]
    rfl

theorem mmFree_spec (os : SbrkAnswers) (holds : s.Holds A) (known : p = 0 ∨ A p ≠ none) (keepsEnd : s.safe os (.free p) = true) :
    ∃ h', s.heap.free p.toNat = some h' ∧ Holds { s with heap := h' } (Function.update A p none) := by
  obtain ⟨L, intact, keeps⟩ := holds.layout
  by_cases null : p = 0
  · subst null
    exact ⟨s.heap, rfl, holds.next intact (.of_segment rfl) (.refl _) intact.toSound (keeps.drop 0)⟩
  obtain ⟨bytes, payload⟩ := Option.ne_none_iff_exists'.mp (known.resolve_left null)
  obtain ⟨b, member, used, held⟩ := keeps p bytes payload
  obtain ⟨pre, lo, hi, post, around⟩ := Malloc.exists_around intact.toSound.coalesced member
  obtain ⟨h', step, freed⟩ := Malloc.Heap.free_inside intact.toSound.toWellFormed around used
  have keepsEnd : s.heap.LosesEnd (headerToPayload b.addr) = false := by
    rw [← held.addr]
    simpa [safe, Session.keepsEnd] using keepsEnd
  rw [held.addr]
  exact ⟨h', step, holds.next intact (.of_segment (Malloc.Heap.free_segment step)) ⟨freed.heapStart, freed.front⟩
    (freed.toFreed.sound intact.toSound around keepsEnd) (keeps.release around freed.toFreed held.addr)⟩

theorem mmRealloc_null (positive : size ≠ 0) : package.mmRealloc s os 0 size = package.mmMalloc s os size := by
  show Option.map _ (s.heap.realloc os 0 size.toNat) = Option.map _ (s.heap.malloc os size.toNat)
  rw [Malloc.Heap.realloc, if_neg (nonzero positive), if_pos rfl]

theorem mmRealloc_spec (holds : s.Holds A) (known : p = 0 ∨ A p ≠ none) (positive : size ≠ 0) (small : size ≤ limit)
    (keepsEnd : s.safe os (.realloc p size) = true) :
    package.mmRealloc s os p size = some (0, s) ∨ ∃ q s', package.mmRealloc s os p size = some (q, s') ∧
      Function.update A p none q = none ∧ ∃ bytes, bytes.length = size.toNat ∧
        (∀ old, A p = some old → Copied old bytes) ∧ s'.Holds (Function.update (Function.update A p none) q (some bytes)) := by
  by_cases null : p = 0
  · subst null
    have unused : A 0 = none := by
      by_contra present
      obtain ⟨bytes, payload⟩ := Option.ne_none_iff_exists'.mp present
      have lower := (holds.bounds payload).1
      rw [UInt64.toNat_zero] at lower
      omega
    have same : Function.update A 0 none = A := Function.update_eq_self_iff.mpr unused.symm
    rw [mmRealloc_null positive, same]
    apply (mmMalloc_spec os holds positive small).imp_right
    rintro ⟨q, s', step, fresh, bytes, length, holds'⟩
    refine ⟨q, s', step, fresh, bytes, length, fun old payload => ?_, holds'⟩
    rw [unused] at payload
    cases payload
  obtain ⟨L, intact, keeps⟩ := holds.layout
  obtain ⟨old, payload⟩ := Option.ne_none_iff_exists'.mp (known.resolve_left null)
  obtain ⟨b, member, used, held⟩ := keeps p old payload
  have isRealloc : package.mmRealloc s os p size = (s.heap.realloc os (headerToPayload b.addr) size.toNat).map fun answer =>
      (UInt64.ofNat answer.1, { s with heap := answer.2 }) := by
    rw [← held.addr]
    rfl
  rw [isRealloc]
  rcases Malloc.Heap.realloc_steps intact.toSound os member used (nonzero positive) (small_limit small) with
    refused | ⟨c, h₀, h₁, L₁, pre, lo, hi, post, h', step, isCopy, served, moved, start, front⟩
  · refine .inl ?_
    rw [refused]
    rfl
  · have isNew := toNat_payload moved.served.sound moved.served.member
    obtain ⟨fresh, keeps'⟩ := keeps.move moved (nonzero positive) payload held.addr isNew
    have sound' := moved_sound moved (nonzero positive) (held.addr ▸ keepsEnd)
    refine .inr ⟨_, { s with heap := h' }, ?_, fresh, _, length_loaded, fun old' payload' => ?_,
      holds.next intact (Malloc.Heap.realloc_within step) ⟨start, front⟩ sound' keeps'⟩
    · rw [step]
      rfl
    · obtain rfl := Option.some.inj (payload.symm.trans payload')
      exact held.copied member used served isNew isCopy

/-- `mem_sbrk` refuses the memory for a block of the adjusted size. -/
def Refuses (s : Mm) (os : SbrkAnswers) (size : UInt64) : Prop :=
  s.heap.memSbrk os.extend (Malloc.max (Malloc.adjustedSize size.toNat) Malloc.chunksize) = none

theorem payload_ne_null {h : Malloc.Heap} {b : Block} (sound : h.Sound L) (member : b ∈ L.blocks) :
    UInt64.ofNat (headerToPayload b.addr) ≠ 0 := by
  intro null
  have address := toNat_payload sound member
  rw [null, UInt64.toNat_zero] at address
  simp [headerToPayload, wsize] at address

theorem mmMalloc_refused {s' : Mm} (holds : s.Holds A) (positive : size ≠ 0) (small : size ≤ limit)
    (null : package.mmMalloc s os size = some (0, s')) : s.Refuses os size := by
  obtain ⟨L, intact, -⟩ := holds.layout
  obtain ⟨answer, allocated, same⟩ := Option.map_eq_some_iff.mp null
  rcases Malloc.Heap.malloc_inside intact.toSound os (small_limit small) with refused | ⟨h', L', c, step, served⟩
  · exact Malloc.Heap.malloc_null intact.toSound os (nonzero positive) (small_limit small) refused
  · obtain rfl := Option.some.inj (step.symm.trans allocated)
    exact absurd (Prod.mk.inj same).1 (payload_ne_null served.sound served.member)

theorem mmRealloc_refused {s' : Mm} (holds : s.Holds A) (known : p = 0 ∨ A p ≠ none) (positive : size ≠ 0)
    (small : size ≤ limit) (null : package.mmRealloc s os p size = some (0, s')) : s.Refuses os size := by
  by_cases isNull : p = 0
  · subst isNull
    rw [mmRealloc_null positive] at null
    exact mmMalloc_refused holds positive small null
  obtain ⟨L, intact, keeps⟩ := holds.layout
  obtain ⟨old, payload⟩ := Option.ne_none_iff_exists'.mp (known.resolve_left isNull)
  obtain ⟨b, member, used, held⟩ := keeps p old payload
  obtain ⟨answer, moved, same⟩ := Option.map_eq_some_iff.mp null
  rw [held.addr] at moved
  rcases Malloc.Heap.realloc_steps intact.toSound os member used (nonzero positive) (small_limit small) with
    refused | ⟨c, h₀, h₁, L₁, pre, lo, hi, post, h', step, -, -, done, -, -⟩
  · obtain ⟨h₀, allocated⟩ := Malloc.Heap.realloc_null os (nonzero positive) refused
    exact Malloc.Heap.malloc_null intact.toSound os (nonzero positive) (small_limit small) allocated
  · obtain rfl := Option.some.inj (step.symm.trans moved)
    exact absurd (Prod.mk.inj same).1 (payload_ne_null done.served.sound done.served.member)

theorem mmInit_holds (mapped : s.Mapped) (os : SbrkAnswers) :
    ∃ ok s', package.mmInit (package.memResetBrk s) os = some (ok, s') ∧ (ok = true → s'.Holds fun _ => none) := by
  obtain ⟨ok, h', step, booted⟩ := Malloc.Heap.mmInit_spec (h := (package.memResetBrk s).heap) os mapped.aligned
    (mapped.user.trans (by unfold wordMod; omega))
  refine ⟨ok, { s with heap := h' }, ?_, fun succeeded => ?_⟩
  · exact congrArg (Option.map _) step
  · obtain ⟨m, -, sound, start, prologue⟩ := booted succeeded
    have within : Within (package.memResetBrk s).heap h' := Malloc.Heap.mmInit_within step
    have maxAddr : h'.maxAddr = s.heap.maxAddr := within.maxAddr
    refine ⟨⟨mapped.start, mapped.aligned, maxAddr.ge.trans' mapped.room, maxAddr.le.trans mapped.user⟩, ?_, _,
      ⟨sound, start, prologue⟩, fun _ _ impossible => nomatch impossible⟩
    rcases within.upper with same | inside
    · exact (same.trans mapped.room).trans maxAddr.ge
    · exact inside.trans maxAddr.ge

theorem mmInit_refused {s' : Mm} (mapped : s.Mapped) (failed : package.mmInit (package.memResetBrk s) os = some (false, s')) :
    (package.memResetBrk s).heap.InitRefused os := by
  obtain ⟨⟨ok, h'⟩, step, same⟩ := Option.map_eq_some_iff.mp failed
  obtain rfl : ok = false := (Prod.mk.inj same).1
  exact Malloc.Heap.mmInit_refused os mapped.aligned (mapped.user.trans (by unfold wordMod; omega)) step

/-- **The contract of `mm.c`**. -/
def contract : Contract package where
  Mapped := Mapped
  Holds := Holds
  Safe s os call := s.safe os call = true
  limit := limit
  RefusesInit s os := (package.memResetBrk s).heap.InitRefused os
  Refuses := Refuses
  init _ os mapped := mmInit_holds mapped os
  mapped holds := holds.toMapped
  user {s _} holds := by
    have isBrk : (package.memHeapHi s).toNat + 1 = s.heap.brk := toNat_heapHi holds.brk_pos holds.brk_lt
    have := holds.brk_le
    have := holds.user
    omega
  placed := Holds.placed
  apart holds payload payload' ne := by
    obtain ⟨L, intact, keeps⟩ := holds.layout
    obtain ⟨b, memB, -, heldB⟩ := keeps _ _ payload
    obtain ⟨c, memC, -, heldC⟩ := keeps _ _ payload'
    have startB := heldB.start
    have startC := heldC.start
    have roomB := heldB.room
    have roomC := heldC.room
    rcases intact.toSound.toWellFormed.spaced.apart memB memC with rfl | before | after
    · exact absurd (UInt64.toNat_inj.mp (startB.trans startC.symm)) ne
    · exact .inl (by omega)
    · exact .inr (by omega)
  read {s A p bytes} holds payload i below := by
    obtain ⟨L, -, keeps⟩ := holds.layout
    obtain ⟨b, -, -, held⟩ := keeps p bytes payload
    rw [held.stored i below, ← holds.byteAt payload below]
    rfl
  write holds payload i below v := by
    have written := holds.write payload below v
    rw [← holds.byteAt payload below] at written
    exact written
  malloc {s _} holds os size positive small _ := by
    rcases mmMalloc_spec os holds positive small with refused | ⟨p, s', step, fresh, given⟩
    · exact ⟨0, s, refused, fun impossible => absurd rfl impossible⟩
    · exact ⟨p, s', step, fun _ => ⟨fresh, given⟩⟩
  free {s _} holds os p known keepsEnd := by
    obtain ⟨h', step, holds'⟩ := mmFree_spec os holds known keepsEnd
    exact ⟨_, congrArg (Option.map _) step, holds'⟩
  reallocZero {s _} holds os p known keepsEnd := by
    obtain ⟨h', step, holds'⟩ := mmFree_spec os holds known keepsEnd
    refine ⟨_, ?_, holds'⟩
    have isRealloc : package.mmRealloc s os p 0 = (s.heap.realloc os p.toNat 0).map fun answer =>
        (UInt64.ofNat answer.1, { s with heap := answer.2 }) := rfl
    rw [isRealloc, Malloc.Heap.realloc, if_pos rfl, step]
    rfl
  realloc {s _} holds os p size known positive small keepsEnd := by
    rcases mmRealloc_spec holds known positive small keepsEnd with refused | ⟨q, s', step, fresh, given⟩
    · exact ⟨0, s, refused, fun impossible => absurd rfl impossible⟩
    · exact ⟨q, s', step, fun _ => ⟨fresh, given⟩⟩
  checkheap holds := by
    obtain ⟨L, intact, -⟩ := holds.layout
    exact ⟨_, congrArg (Option.map _) (Malloc.Heap.mmCheckheap_eq intact)⟩
  init_refused mapped failed := mmInit_refused mapped failed
  malloc_refused := mmMalloc_refused
  realloc_refused := mmRealloc_refused

instance (s : Mm) (os : SbrkAnswers) (call : MmCall) : Decidable (contract.Safe s os call) :=
  inferInstanceAs (Decidable (s.safe os call = true))

/-! ## The verdict -/

/-- **The driver accepts `mm.c`** on every well-formed trace whose calls do not lose `heap_end`, or it
stops where `mem_sbrk` refuses.  Its expensive mode may also believe `mm_checkheap`. -/
theorem mm_accepted (cfg : Settings) (init : SbrkAnswers) (answers : Nat → Answers SbrkAnswers) (trace : Trace) (s : Mm)
    (mapped : s.Mapped) (wellFormed : trace.WellFormed limit)
    (granted : ∀ s', package.mmInit (package.memResetBrk s) init = some (true, s') →
      Evaluation.Granted contract cfg answers 0 trace.ops ⟨s', reinitTrace trace.slots, .newRangeSet, true, []⟩) :
    ∃ verdict s', evalMmValid package cfg init answers trace .newRangeSet s = some (verdict, s') ∧
      (verdict = true ∧ s'.complaints = [] ∨
        verdict = false ∧ s'.complaints = [.initFailed] ∧ (package.memResetBrk s).heap.InitRefused init ∨
        verdict = false ∧ ∃ booted before op after s₁, package.mmInit (package.memResetBrk s) init = some (true, booted) ∧
          trace.ops = before ++ op :: after ∧
          Evaluation.Passes package cfg answers 0 before
            ⟨booted, reinitTrace trace.slots, .newRangeSet, true, []⟩ s₁ ∧
          (s'.complaints = [.checkheapFailed before.length] ∧ cfg.debugMode = .expensive ∧
              package.mmCheckheap s₁.memory = some false ∨
            s₁.memory.Refuses (answers before.length).os op.size ∧
              (op.type = .alloc ∧ s'.complaints = [.mallocFailed before.length] ∨
                op.type = .realloc ∧ s'.complaints = [.reallocFailed before.length]))) := by
  obtain ⟨verdict, s', returns, accepted | refused | ⟨rejected, booted, complaint, started, stops, complains⟩⟩ :=
    evalMmValid_accepts contract cfg init answers trace s mapped wellFormed granted
  · exact ⟨verdict, s', returns, .inl accepted⟩
  · exact ⟨verdict, s', returns, .inr (.inl refused)⟩
  · obtain ⟨before, op, after, s₁, split, passes, refusal⟩ := stops
    rw [Nat.zero_add] at refusal
    refine ⟨verdict, s', returns, .inr (.inr ⟨rejected, booted, before, op, after, s₁, started, split, passes, ?_⟩)⟩
    obtain ⟨rfl, checked⟩ | ⟨rfl, isAlloc, refuses⟩ | ⟨rfl, isRealloc, refuses⟩ := refusal
    · exact .inl ⟨complains, checked⟩
    · exact .inr ⟨refuses, .inl ⟨isAlloc, complains⟩⟩
    · exact .inr ⟨refuses, .inr ⟨isRealloc, complains⟩⟩

/-- The block is moved, and moved back. -/
def movingTrace : Trace := ⟨[⟨.alloc, 0, 5⟩, ⟨.realloc, 0, 200⟩, ⟨.free, 0, 0⟩], [⟨0, 0, 0⟩]⟩

def addresses (i : Nat) : Answers SbrkAnswers := ⟨Session.granted, 3, 2 * UInt64.ofNat i + 1, 2 * UInt64.ofNat i + 2⟩

theorem mm_accepted_moving : ∃ s',
    evalMmValid package ⟨.cheap, 4, fun _ => 7⟩ Session.granted addresses movingTrace .newRangeSet ⟨Session.blank, 4096⟩ =
      some (true, s') ∧ s'.complaints = [] := by
  have passes : (evalMmValid package ⟨.cheap, 4, fun _ => 7⟩ Session.granted addresses movingTrace .newRangeSet
      ⟨Session.blank, 4096⟩).map Prod.fst = some true := by decide +kernel
  obtain ⟨verdict, s', returns, accepted | ⟨rejected, -⟩ | ⟨rejected, -⟩⟩ := mm_accepted ⟨.cheap, 4, fun _ => 7⟩
    Session.granted addresses movingTrace ⟨Session.blank, 4096⟩ ⟨by decide, by decide, by decide, by decide⟩ (by decide)
    (by decide +kernel)
  · exact ⟨s', by rw [returns, accepted.1], accepted.2⟩
  · rw [returns, rejected] at passes
    cases passes
  · rw [returns, rejected] at passes
    cases passes

end Mm

end SystemsLabs.Driver
