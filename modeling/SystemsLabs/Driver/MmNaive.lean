/-
# SystemsLabs.Driver.MmNaive -- the package of `mm-naive.c`

The functions of `mm-naive.c`, in its order, over the dense memory of `memlib.c`.  Blocks are cut
off the break one after the other and never used again.  `calloc`, which the driver does not call, is
left out.

`realloc` copies as many bytes as the old block has, header included, which is up to 16 more than
there are in its payload; they come from the header of the next block (`realloc_spec`).  The package
keeps its contract without a condition (`contract`), so the driver accepts it on every well-formed
trace (`naive_accepted`).
-/
import SystemsLabs.Driver.Verdict
import SystemsLabs.Malloc.PackedWord

namespace SystemsLabs.Driver

set_option autoImplicit false

open Theory.ByteMemory
open Malloc (wordMod wadd wsub wmul wadd_of_lt wsub_of_le wmul_of_lt)

/-- The heap of `memlib.c`: its bytes, its start, `mem_brk` and `mem_max_addr`. -/
structure Naive where
  mem : Mem
  heap : Nat
  brk : Nat
  maxAddr : Nat

namespace Naive

/-- `HEADER_SIZE` -/
def headerSize : Nat := 16

/-- `ALIGNMENT` -/
def alignment : Nat := 16

def payloadToHeader (bp : Nat) : Nat := bp - headerSize

def headerToPayload (block : Nat) : Nat := block + headerSize

def roundup (size multiple : Nat) : Nat := wmul multiple (wsub (wadd size multiple) 1 / multiple)

/-- `mem_sbrk`, as in `Malloc.Heap.memSbrk`. -/
def memSbrk (s : Naive) (granted : Bool) (incr : Nat) : Option (Nat × Naive) :=
  if incr ≥ 2 ^ 63 then none
  else if s.brk + incr > s.maxAddr then none
  else if !granted then none
  else some (s.brk, { s with brk := s.brk + incr })

/-- `block->size` -/
def sizeAt (s : Naive) (block : Nat) : Nat := read64 s.mem block

def mmInit (s : Naive) : Bool × Naive := (true, s)

def malloc (s : Naive) (granted : Bool) (size : Nat) : Nat × Naive :=
  let newsize := roundup (wadd size headerSize) alignment
  (s.memSbrk granted newsize).elim (0, s) fun (block, s) =>
    (headerToPayload block, { s with mem := write64 s.mem block newsize })

def free (s : Naive) (_ptr : Nat) : Naive := s

def realloc (s : Naive) (granted : Bool) (oldptr size : Nat) : Nat × Naive :=
  if size = 0 then (0, s.free oldptr)
  else if oldptr = 0 then s.malloc granted size
  else
    let malloced := s.malloc granted size
    let newptr := malloced.1
    let s := malloced.2
    if newptr = 0 then (0, s)
    else
      let block := payloadToHeader oldptr
      let copysize := s.sizeAt block
      let copysize := if size < copysize then size else copysize
      let s := { s with mem := copy s.mem newptr oldptr copysize }
      (newptr, s.free oldptr)

def mmCheckheap (_ : Naive) : Bool := true

/-- What the driver calls. -/
def package : Package Naive Bool where
  memResetBrk s := { s with brk := s.heap }
  memHeapLo s := UInt64.ofNat s.heap
  memHeapHi s := UInt64.ofNat s.brk - 1
  memRead s a := s.mem a.toNat
  memWrite s a v := { s with mem := Function.update s.mem a.toNat v }
  mmInit s _ := some s.mmInit
  mmMalloc s granted size :=
    let malloced := s.malloc granted size.toNat
    some (UInt64.ofNat malloced.1, malloced.2)
  mmFree s p := some (s.free p.toNat)
  mmRealloc s granted p size :=
    let realloced := s.realloc granted p.toNat size.toNat
    some (UInt64.ofNat realloced.1, realloced.2)
  mmCheckheap s := some s.mmCheckheap

/-- What `mem_sbrk` grants. -/
theorem memSbrk_some {s : Naive} {granted : Bool} {incr : Nat} {grant : Nat × Naive} (present : s.memSbrk granted incr = some grant) :
    s.brk + incr ≤ s.maxAddr ∧ grant = (s.brk, { s with brk := s.brk + incr }) := by
  unfold memSbrk at present
  split at present
  · cases present
  split at present
  · cases present
  next within =>
    split at present
    · cases present
    exact ⟨by omega, (Option.some.inj present).symm⟩

/-- The heap stays where it is, and the break does not go down. -/
def Onward (s : Naive) (answer : Nat × Naive) : Prop := answer.2.heap = s.heap ∧ s.brk ≤ answer.2.brk

theorem malloc_onward {s : Naive} {granted : Bool} {size : Nat} {answer : Nat × Naive}
    (returned : s.malloc granted size = answer) : s.Onward answer := by
  rw [malloc] at returned
  generalize roundup (wadd size headerSize) alignment = newsize at returned
  cases isGranted : s.memSbrk granted newsize with
  | none =>
      rw [isGranted, Option.elim_none] at returned
      rw [← returned]
      exact ⟨rfl, Nat.le_refl _⟩
  | some grant =>
      obtain ⟨-, rfl⟩ := memSbrk_some isGranted
      rw [isGranted, Option.elim_some] at returned
      rw [← returned]
      exact ⟨rfl, Nat.le_add_right _ _⟩

theorem realloc_onward {s : Naive} {granted : Bool} {oldptr size : Nat} {answer : Nat × Naive}
    (returned : s.realloc granted oldptr size = answer) : s.Onward answer := by
  obtain ⟨malloced, isMalloced⟩ : ∃ malloced, s.malloc granted size = malloced := ⟨_, rfl⟩
  have onward := malloc_onward isMalloced
  rw [realloc, isMalloced] at returned
  split at returned
  · rw [← returned]
    exact ⟨rfl, Nat.le_refl _⟩
  split at returned
  · rw [← returned]
    exact onward
  · dsimp only at returned
    split at returned <;>
      · rw [← returned]
        exact onward

/-! ## The invariant -/

/-- The segment is where user addresses are. -/
structure Mapped (s : Naive) : Prop where
  start : 0 < s.heap
  aligned : s.heap % 16 = 0
  room : s.heap ≤ s.maxAddr
  user : s.maxAddr ≤ 2 ^ 63

/-- The block of a payload, whose size its header holds. -/
structure Block (s : Naive) (p : Addr) (bytes : List UInt8) : Prop where
  nonempty : bytes ≠ []
  aligned : p.toNat % 16 = 0
  lower : s.heap + 16 ≤ p.toNat
  upper : p.toNat - 16 + s.sizeAt (p.toNat - 16) ≤ s.brk
  room : bytes.length + 16 ≤ s.sizeAt (p.toNat - 16)
  stored : Stored s.mem p.toNat bytes

structure Holds (s : Naive) (A : Payloads) : Prop extends Mapped s where
  brk_aligned : s.brk % 16 = 0
  lower : s.heap ≤ s.brk
  upper : s.brk ≤ s.maxAddr
  block : ∀ p bytes, A p = some bytes → s.Block p bytes
  apart : ∀ p bytes q bytes', A p = some bytes → A q = some bytes' → p ≠ q →
    p.toNat + s.sizeAt (p.toNat - 16) ≤ q.toNat ∨ q.toNat + s.sizeAt (q.toNat - 16) ≤ p.toNat

variable {s s' : Naive} {A : Payloads} {p q : Addr} {bytes bytes' : List UInt8} {granted : Bool} {size n : Nat} {mem : Mem}

/-- A block depends on its own bytes. -/
theorem Block.congr (block : s.Block p bytes) (heap : s'.heap = s.heap) (brk : s.brk ≤ s'.brk)
    (same : ∀ x, p.toNat - 16 ≤ x → x < p.toNat - 16 + s.sizeAt (p.toNat - 16) → s'.mem x = s.mem x) :
    s'.Block p bytes ∧ s'.sizeAt (p.toNat - 16) = s.sizeAt (p.toNat - 16) := by
  have lower := block.lower
  have upper := block.upper
  have room := block.room
  have header : s'.sizeAt (p.toNat - 16) = s.sizeAt (p.toNat - 16) :=
    read64_congr fun x lo hi => same x lo (by omega)
  exact ⟨⟨block.nonempty, block.aligned, heap ▸ lower, by omega, by omega,
    block.stored.congr fun x lo hi => same x (by omega) (by omega)⟩, header⟩

/-- A payload is forgotten. -/
theorem Holds.drop (holds : s.Holds A) (p : Addr) : s.Holds (Function.update A p none) := by
  have old : ∀ q bytes, Function.update A p none q = some bytes → A q = some bytes := by
    intro q bytes payload
    by_cases here : q = p
    · subst here
      rw [Function.update_self] at payload
      cases payload
    · rwa [Function.update_of_ne here] at payload
  exact { holds with
    block := fun q bytes payload => holds.block q bytes (old q bytes payload)
    apart := fun q bytes u bytes' payload payload' => holds.apart q bytes u bytes' (old q bytes payload) (old u bytes' payload') }

theorem Holds.below (holds : s.Holds A) (payload : A p = some bytes) : p.toNat + bytes.length ≤ s.brk := by
  have block := holds.block p bytes payload
  have := block.upper
  have := block.room
  have := block.lower
  omega

theorem Holds.brk_lt (holds : s.Holds A) : s.brk < 2 ^ 64 := by
  have := holds.upper
  have := holds.user
  omega

/-- A block of `n` bytes was cut off the break for a payload of `size`. -/
structure Cut (s : Naive) (size n : Nat) (mem : Mem) : Prop where
  aligned : n % 16 = 0
  room : size + 16 ≤ n
  within : s.brk + n ≤ s.maxAddr
  header : read64 mem s.brk = n
  same : ∀ x < s.brk, mem x = s.mem x

/-- **A new block** at the break. -/
theorem Holds.grow (holds : s.Holds A) (cut : s.Cut bytes.length n mem) (isNew : p.toNat = s.brk + 16)
    (nonempty : bytes ≠ []) (stored : Stored mem p.toNat bytes) :
    A p = none ∧ Holds { s with mem := mem, brk := s.brk + n } (Function.update A p (some bytes)) := by
  obtain ⟨aligned, room, within, header, same⟩ := cut
  have fresh : A p = none := by
    by_contra present
    obtain ⟨old, payload⟩ := Option.ne_none_iff_exists'.mp present
    have := holds.below payload
    omega
  have start : p.toNat - 16 = s.brk := by omega
  have here : sizeAt { s with mem := mem, brk := s.brk + n } (p.toNat - 16) = n := by
    rw [start]
    exact header
  have old : ∀ q bytes, A q = some bytes → Block { s with mem := mem, brk := s.brk + n } q bytes ∧
      sizeAt { s with mem := mem, brk := s.brk + n } (q.toNat - 16) = s.sizeAt (q.toNat - 16) := by
    intro q bytes payload
    have block := holds.block q bytes payload
    have upper := block.upper
    exact block.congr rfl (Nat.le_add_right _ _) fun x _ hi => same x (by omega)
  have beyond : ∀ q bytes, A q = some bytes → q.toNat + s.sizeAt (q.toNat - 16) ≤ p.toNat := by
    intro q bytes payload
    have block := holds.block q bytes payload
    have := block.upper
    have := block.lower
    omega
  have lower := holds.lower
  have brk_aligned := holds.brk_aligned
  refine ⟨fresh, { holds.toMapped with
    brk_aligned := by show (s.brk + n) % 16 = 0; omega
    lower := by show s.heap ≤ s.brk + n; omega
    upper := within
    block := fun q bytes' payload => ?_
    apart := fun q bytes₁ u bytes₂ payload payload' ne => ?_ }⟩
  · by_cases isP : q = p
    · subst isP
      rw [Function.update_self] at payload
      obtain rfl := Option.some.inj payload
      refine ⟨nonempty, by omega, by show s.heap + 16 ≤ q.toNat; omega, ?_, by rw [here]; exact room, stored⟩
      rw [here, start]
    · rw [Function.update_of_ne isP] at payload
      exact (old q bytes' payload).1
  · by_cases isP : q = p
    · subst isP
      rw [Function.update_of_ne (Ne.symm ne)] at payload'
      rw [(old u bytes₂ payload').2]
      exact .inr (beyond u bytes₂ payload')
    · rw [Function.update_of_ne isP] at payload
      rw [(old q bytes₁ payload).2]
      by_cases isP' : u = p
      · subst isP'
        exact .inl (beyond q bytes₁ payload)
      · rw [Function.update_of_ne isP'] at payload'
        rw [(old u bytes₂ payload').2]
        exact holds.apart q bytes₁ u bytes₂ payload payload' ne

/-- The driver writes into a payload. -/
theorem Holds.write (holds : s.Holds A) (payload : A p = some bytes) {i : Nat} (below : i < bytes.length) (v : UInt8) :
    Holds { s with mem := Function.update s.mem (p.toNat + i) v } (Function.update A p (some (bytes.set i v))) := by
  have block := holds.block p bytes payload
  have lower := block.lower
  have room := block.room
  have same : ∀ x, x ≠ p.toNat + i → Function.update s.mem (p.toNat + i) v x = s.mem x := fun x other =>
    Function.update_of_ne other ..
  have old : ∀ q bytes', A q = some bytes' → q ≠ p →
      Block { s with mem := Function.update s.mem (p.toNat + i) v } q bytes' ∧
      sizeAt { s with mem := Function.update s.mem (p.toNat + i) v } (q.toNat - 16) = s.sizeAt (q.toNat - 16) := by
    intro q bytes' payload' other
    have block' := holds.block q bytes' payload'
    have lower' := block'.lower
    have apart := holds.apart q bytes' p bytes payload' payload other
    exact block'.congr rfl (Nat.le_refl _) fun x lo hi => same x (by omega)
  have here : sizeAt { s with mem := Function.update s.mem (p.toNat + i) v } (p.toNat - 16) = s.sizeAt (p.toNat - 16) :=
    read64_congr fun x lo hi => same x (by omega)
  have nonempty : bytes.set i v ≠ [] := by
    rw [ne_eq, List.set_eq_nil_iff]
    exact block.nonempty
  refine { holds.toMapped with
    brk_aligned := holds.brk_aligned
    lower := holds.lower
    upper := holds.upper
    block := fun q bytes' payload' => ?_
    apart := fun q bytes₁ u bytes₂ payload₁ payload₂ ne => ?_ }
  · by_cases isP : q = p
    · subst isP
      rw [Function.update_self] at payload'
      obtain rfl := Option.some.inj payload'
      refine ⟨nonempty, block.aligned, lower, by rw [here]; exact block.upper, ?_, block.stored.write below v⟩
      rw [here, List.length_set]
      exact room
    · rw [Function.update_of_ne isP] at payload'
      exact (old q bytes' payload' isP).1
  · have sizes : ∀ q bytes', Function.update A p (some (bytes.set i v)) q = some bytes' → ∃ old, A q = some old ∧
        sizeAt { s with mem := Function.update s.mem (p.toNat + i) v } (q.toNat - 16) = s.sizeAt (q.toNat - 16) := by
      intro q bytes' payload'
      by_cases isP : q = p
      · subst isP
        exact ⟨bytes, payload, here⟩
      · rw [Function.update_of_ne isP] at payload'
        exact ⟨bytes', payload', (old q bytes' payload' isP).2⟩
    obtain ⟨old₁, isOld₁, size₁⟩ := sizes q bytes₁ payload₁
    obtain ⟨old₂, isOld₂, size₂⟩ := sizes u bytes₂ payload₂
    rw [size₁, size₂]
    exact holds.apart q old₁ u old₂ isOld₁ isOld₂ ne

/-! ## The calls -/

theorem roundup_spec (small : size + 32 < wordMod) :
    roundup (wadd size headerSize) alignment % 16 = 0 ∧ size + 16 ≤ roundup (wadd size headerSize) alignment ∧
      roundup (wadd size headerSize) alignment < wordMod := by
  have whole : roundup (wadd size headerSize) alignment = 16 * ((size + 31) / 16) := by
    simp only [roundup, headerSize, alignment]
    rw [wadd_of_lt (by omega : size + 16 < wordMod), wadd_of_lt (by omega : size + 16 + 16 < wordMod),
      wsub_of_le (by omega) (by omega), wmul_of_lt (by omega)]
    rfl
  rw [whole]
  omega

/-- `malloc` cuts a block off the break, or it refuses. -/
theorem malloc_spec (s : Naive) (granted : Bool) (small : size + 32 < wordMod) : s.malloc granted size = (0, s) ∨ ∃ n mem, s.Cut size n mem ∧
    s.malloc granted size = (s.brk + 16, { s with mem := mem, brk := s.brk + n }) := by
  obtain ⟨aligned, room, fits⟩ := roundup_spec small
  cases isGranted : s.memSbrk granted (roundup (wadd size headerSize) alignment) with
  | none =>
      refine .inl ?_
      rw [malloc, isGranted, Option.elim_none]
  | some grant =>
      obtain ⟨within, rfl⟩ := memSbrk_some isGranted
      refine .inr ⟨_, write64 s.mem s.brk (roundup (wadd size headerSize) alignment),
        ⟨aligned, room, within, read64_write64 s.mem fits, fun x below => write64_outside s.mem (Or.inl below)⟩, ?_⟩
      rw [malloc, isGranted, Option.elim_some]
      rfl

/-- `realloc` does the same, and the new payload starts like the old one. -/
theorem realloc_spec (granted : Bool) (holds : s.Holds A) (positive : size ≠ 0) (small : size + 32 < wordMod) (known : p = 0 ∨ A p ≠ none) :
    s.realloc granted p.toNat size = (0, s) ∨ ∃ n mem, s.Cut size n mem ∧
      s.realloc granted p.toNat size = (s.brk + 16, { s with mem := mem, brk := s.brk + n }) ∧
      ∀ old, A p = some old → ∀ i < min old.length size, mem (s.brk + 16 + i) = s.mem (p.toNat + i) := by
  by_cases isNull : p = 0
  · subst isNull
    have asMalloc : s.realloc granted (0 : Addr).toNat size = s.malloc granted size := by
      rw [realloc, if_neg positive, UInt64.toNat_zero, if_pos rfl]
    rw [asMalloc]
    rcases malloc_spec s granted small with refused | ⟨n, mem, cut, isNew⟩
    · exact .inl refused
    · refine .inr ⟨n, mem, cut, isNew, fun old payload => ?_⟩
      have lower := (holds.block 0 old payload).lower
      rw [UInt64.toNat_zero] at lower
      omega
  obtain ⟨bytes, payload⟩ := Option.ne_none_iff_exists'.mp (known.resolve_left isNull)
  have block := holds.block p bytes payload
  have lower := block.lower
  have upper := block.upper
  have room := block.room
  have real : p.toNat ≠ 0 := by omega
  rw [realloc, if_neg positive, if_neg real]
  rcases malloc_spec s granted small with refused | ⟨n, mem, cut, isNew⟩
  · refine .inl ?_
    rw [refused]
    exact if_pos rfl
  refine .inr ⟨n, copy mem (s.brk + 16) p.toNat (min (s.sizeAt (p.toNat - 16)) size), ?_, ?_, ?_⟩
  · exact { cut with
      header := (read64_congr fun x _ hi => copy_outside mem _ _ p.toNat (Or.inl (by omega))).trans cut.header
      same := fun x below => (copy_outside mem _ _ p.toNat (Or.inl (by omega))).trans (cut.same x below) }
  · have header : sizeAt { s with mem := mem, brk := s.brk + n } (payloadToHeader p.toNat) = s.sizeAt (p.toNat - 16) :=
      read64_congr fun x _ hi => cut.same x (by simp only [payloadToHeader, headerSize] at hi; omega)
    have copysize : (if size < s.sizeAt (p.toNat - 16) then size else s.sizeAt (p.toNat - 16)) =
        min (s.sizeAt (p.toNat - 16)) size := by split <;> omega
    simp only [isNew, if_neg (by omega : ¬ s.brk + 16 = 0), header, copysize]
    rfl
  · intro old isOld i below
    obtain rfl := Option.some.inj (payload.symm.trans isOld)
    rw [copy_inside mem _ _ p.toNat (by omega)]
    exact cut.same _ (by omega)

/-! ## The contract -/

theorem Holds.placed (holds : s.Holds A) (payload : A p = some bytes) : Placed package s p bytes := by
  have block := holds.block p bytes payload
  have lower := block.lower
  exact .of_toNat rfl rfl holds.brk_lt holds.start block.nonempty block.aligned (by omega) (holds.below payload)

theorem Holds.byteAt (holds : s.Holds A) (payload : A p = some bytes) {i : Nat} (below : i < bytes.length) :
    (p + UInt64.ofNat i).toNat = p.toNat + i := by
  have upper := holds.below payload
  have fits := holds.brk_lt
  exact toNat_byteAt (by omega)

theorem Holds.new (holds : s.Holds A) (cut : s.Cut size n mem) (positive : size ≠ 0) :
    A (UInt64.ofNat (s.brk + 16)) = none ∧ Holds { s with mem := mem, brk := s.brk + n }
      (Function.update A (UInt64.ofNat (s.brk + 16)) (some (loaded mem (s.brk + 16) size))) := by
  have room := cut.room
  have within := cut.within
  have user := holds.user
  have isNew : (UInt64.ofNat (s.brk + 16)).toNat = s.brk + 16 := UInt64.toNat_ofNat_of_lt'
    (Nat.lt_of_lt_of_le (by omega : s.brk + 16 < 2 ^ 64) (Nat.le_refl _))
  refine holds.grow (length_loaded.symm ▸ cut) isNew ?_ (isNew.symm ▸ stored_loaded mem (s.brk + 16) size)
  intro isNil
  have noBytes := congrArg List.length isNil
  rw [length_loaded, List.length_nil] at noBytes
  exact positive noBytes

/-- The largest request of a trace. -/
def limit : UInt64 := 0xFFFFFFFFFFFFFFDF

theorem small_limit {size : UInt64} (small : size ≤ limit) : size.toNat + 32 < wordMod := by
  have isLimit : limit.toNat = 0xFFFFFFFFFFFFFFDF := rfl
  rw [UInt64.le_iff_toNat_le, isLimit] at small
  unfold wordMod
  omega

theorem nonzero {size : UInt64} (positive : size ≠ 0) : size.toNat ≠ 0 := fun isZero => positive (UInt64.toNat_inj.mp isZero)

theorem mmMalloc_spec (granted : Bool) {size : UInt64} (small : size ≤ limit) : package.mmMalloc s granted size = some (0, s) ∨
    ∃ n mem, s.Cut size.toNat n mem ∧ package.mmMalloc s granted size =
      some (UInt64.ofNat (s.brk + 16), { s with mem := mem, brk := s.brk + n }) := by
  have isMalloc : package.mmMalloc s granted size =
      some (UInt64.ofNat (s.malloc granted size.toNat).1, (s.malloc granted size.toNat).2) := rfl
  rcases malloc_spec s granted (small_limit small) with refused | ⟨n, mem, cut, isNew⟩
  · refine .inl ?_
    rw [isMalloc, refused]
    rfl
  · refine .inr ⟨n, mem, cut, ?_⟩
    rw [isMalloc, isNew]

theorem mmRealloc_spec (granted : Bool) {size : UInt64} (holds : s.Holds A) (positive : size ≠ 0) (small : size ≤ limit)
    (known : p = 0 ∨ A p ≠ none) : package.mmRealloc s granted p size = some (0, s) ∨
    ∃ n mem, s.Cut size.toNat n mem ∧ package.mmRealloc s granted p size =
      some (UInt64.ofNat (s.brk + 16), { s with mem := mem, brk := s.brk + n }) ∧
      ∀ old, A p = some old → ∀ i < min old.length size.toNat, mem (s.brk + 16 + i) = s.mem (p.toNat + i) := by
  have isRealloc : package.mmRealloc s granted p size =
      some (UInt64.ofNat (s.realloc granted p.toNat size.toNat).1, (s.realloc granted p.toNat size.toNat).2) := rfl
  rcases realloc_spec granted holds (nonzero positive) (small_limit small) known with
    refused | ⟨n, mem, cut, isNew, copied⟩
  · refine .inl ?_
    rw [isRealloc, refused]
    rfl
  · refine .inr ⟨n, mem, cut, ?_, copied⟩
    rw [isRealloc, isNew]

/-- The memory does not grow by the block of a request. -/
def Refuses (s : Naive) (granted : Bool) (size : UInt64) : Prop :=
  s.memSbrk granted (roundup (wadd size.toNat headerSize) alignment) = none

theorem malloc_refused {size : UInt64} (holds : s.Holds A) (small : size ≤ limit)
    (null : UInt64.ofNat (s.malloc granted size.toNat).1 = 0) : s.Refuses granted size := by
  obtain ⟨-, room, -⟩ := roundup_spec (small_limit small)
  by_contra grows
  obtain ⟨grant, isGranted⟩ := Option.ne_none_iff_exists'.mp grows
  obtain ⟨within, rfl⟩ := memSbrk_some isGranted
  have pointer : (s.malloc granted size.toNat).1 = s.brk + 16 := by
    rw [malloc, isGranted, Option.elim_some]
    rfl
  have user := holds.user
  have isNew : (UInt64.ofNat (s.brk + 16)).toNat = s.brk + 16 := UInt64.toNat_ofNat_of_lt'
    (Nat.lt_of_lt_of_le (by omega : s.brk + 16 < 2 ^ 64) (Nat.le_refl _))
  have isNull : s.brk + 16 = 0 := by
    rw [← isNew, ← pointer, null, UInt64.toNat_zero]
  exact absurd isNull (Nat.succ_ne_zero _)

/-- `realloc` returns what its `malloc` does. -/
theorem realloc_fst (positive : size ≠ 0) (oldptr : Nat) :
    (s.realloc granted oldptr size).1 = (s.malloc granted size).1 := by
  rw [realloc, if_neg positive]
  generalize s.malloc granted size = malloced
  obtain ⟨newptr, s₁⟩ := malloced
  by_cases isNull : oldptr = 0
  · rw [if_pos isNull]
  · rw [if_neg isNull]
    by_cases null : newptr = 0
    · simp only [null, if_true]
    · simp only [if_neg null]

/-- **The contract of `mm-naive.c`**. -/
def contract : Contract package where
  Mapped := Mapped
  Holds := Holds
  Safe _ _ _ := True
  limit := limit
  RefusesInit _ _ := False
  Refuses := Refuses
  init s _ mapped := ⟨true, { s with brk := s.heap }, rfl, fun _ => { mapped with
    brk_aligned := mapped.aligned
    lower := Nat.le_refl _
    upper := mapped.room
    block := fun _ _ impossible => nomatch impossible
    apart := fun _ _ _ _ impossible => nomatch impossible }⟩
  mapped holds := holds.toMapped
  user holds := by
    have isBrk : (package.memHeapHi _).toNat + 1 = _ := toNat_heapHi (holds.start.trans_le holds.lower) holds.brk_lt
    have := holds.upper
    have := holds.user
    omega
  placed := Holds.placed
  apart holds payload payload' ne := by
    have := (holds.block _ _ payload).room
    have := (holds.block _ _ payload').room
    have := holds.apart _ _ _ _ payload payload' ne
    omega
  read holds payload i below := by
    rw [(holds.block _ _ payload).stored i below, ← holds.byteAt payload below]
    rfl
  write holds payload i below v := by
    have written := holds.write payload below v
    rw [← holds.byteAt payload below] at written
    exact written
  malloc holds granted size nonempty small _ := by
    rcases mmMalloc_spec granted small with refused | ⟨n, mem, cut, isNew⟩
    · exact ⟨_, _, refused, fun impossible => absurd rfl impossible⟩
    · obtain ⟨fresh, holds'⟩ := holds.new cut (nonzero nonempty)
      exact ⟨_, _, isNew, fun _ => ⟨fresh, _, length_loaded, holds'⟩⟩
  free := fun holds _ p _ _ => ⟨_, rfl, holds.drop p⟩
  reallocZero := fun holds _ p _ _ => ⟨_, rfl, holds.drop p⟩
  realloc holds granted p size known nonempty small _ := by
    rcases mmRealloc_spec granted holds nonempty small known with refused | ⟨n, mem, cut, isNew, copied⟩
    · exact ⟨_, _, refused, fun impossible => absurd rfl impossible⟩
    · obtain ⟨fresh, holds'⟩ := (holds.drop p).new cut (nonzero nonempty)
      refine ⟨_, _, isNew, fun _ => ⟨fresh, _, length_loaded, fun old payload => ?_, holds'⟩⟩
      refine (holds.block p old payload).stored.copied (stored_loaded mem _ _) fun i below => ?_
      rw [length_loaded] at below
      exact copied old payload i below
  checkheap _ := ⟨true, rfl⟩
  init_refused _ failed := by cases failed
  malloc_refused holds _ small null := malloc_refused holds small (Prod.mk.inj (Option.some.inj null)).1
  realloc_refused {s _ A os p size} holds _ positive small null := by
    have null : UInt64.ofNat (s.realloc os p.toNat size.toNat).1 = 0 := (Prod.mk.inj (Option.some.inj null)).1
    rw [realloc_fst (nonzero positive)] at null
    exact malloc_refused holds small null

instance (s : Naive) (os : Bool) (call : MmCall) : Decidable (contract.Safe s os call) := isTrue trivial

/-! ## The verdict -/

/-- **The driver accepts `mm-naive.c`** on every well-formed trace, or it stops at a request for which
the memory does not grow. -/
theorem naive_accepted (cfg : Settings) (init : Bool) (answers : Nat → Answers Bool) (trace : Trace) (s : Naive)
    (mapped : s.Mapped) (wellFormed : trace.WellFormed limit)
    (fresh : Evaluation.Granted contract cfg answers 0 trace.ops
      ⟨{ s with brk := s.heap }, reinitTrace trace.slots, .newRangeSet, true, []⟩) :
    ∃ verdict s', evalMmValid package cfg init answers trace .newRangeSet s = some (verdict, s') ∧
      (verdict = true ∧ s'.complaints = [] ∨
        verdict = false ∧ ∃ before op after s₁, trace.ops = before ++ op :: after ∧
          Evaluation.Passes package cfg answers 0 before
            ⟨{ s with brk := s.heap }, reinitTrace trace.slots, .newRangeSet, true, []⟩ s₁ ∧
          s₁.memory.Refuses (answers before.length).os op.size ∧
          (op.type = .alloc ∧ s'.complaints = [.mallocFailed before.length] ∨
            op.type = .realloc ∧ s'.complaints = [.reallocFailed before.length])) := by
  obtain ⟨verdict, s', returns, accepted | ⟨-, -, started⟩ | ⟨rejected, memory', complaint, booted, stops, complains⟩⟩ :=
    evalMmValid_accepts contract cfg init answers trace s mapped wellFormed fun memory' booted => by
      cases booted
      exact fresh
  · exact ⟨verdict, s', returns, .inl accepted⟩
  · exact absurd started id
  · cases booted
    obtain ⟨before, op, after, s₁, split, passes, refusal⟩ := stops
    rw [Nat.zero_add] at refusal
    refine ⟨verdict, s', returns, .inr ⟨rejected, before, op, after, s₁, split, passes, ?_⟩⟩
    obtain ⟨-, -, checked⟩ | ⟨rfl, isAlloc, refuses⟩ | ⟨rfl, isRealloc, refuses⟩ := refusal
    · cases checked
    · exact ⟨refuses, .inl ⟨isAlloc, complains⟩⟩
    · exact ⟨refuses, .inr ⟨isRealloc, complains⟩⟩

/-- A heap of a page. -/
def page : Naive := ⟨fun _ => 0, 0x1000, 0x1000, 0x2000⟩

/-- A block is moved and given back, and `free` is called on none. -/
def shortTrace : Trace := ⟨[⟨.alloc, 0, 5⟩, ⟨.realloc, 0, 200⟩, ⟨.realloc, 0, 0⟩, ⟨.free, -1, 0⟩], [⟨0, 0, 0⟩]⟩

theorem naive_accepted_page : ∃ s',
    evalMmValid package ⟨.expensive, 4, fun _ => 7⟩ true (fun i => ⟨true, 3, 2 * UInt64.ofNat i + 1, 2 * UInt64.ofNat i + 2⟩)
      shortTrace .newRangeSet page = some (true, s') ∧ s'.complaints = [] := by
  have passes : (evalMmValid package ⟨.expensive, 4, fun _ => 7⟩ true
      (fun i => ⟨true, 3, 2 * UInt64.ofNat i + 1, 2 * UInt64.ofNat i + 2⟩) shortTrace .newRangeSet page).map Prod.fst =
      some true := by decide +kernel
  obtain ⟨verdict, s', returns, accepted | ⟨rejected, -⟩⟩ := naive_accepted ⟨.expensive, 4, fun _ => 7⟩ true
    (fun i => ⟨true, 3, 2 * UInt64.ofNat i + 1, 2 * UInt64.ofNat i + 2⟩) shortTrace page
    ⟨by decide, by decide, by decide, by decide⟩ (by decide) (by decide +kernel)
  · exact ⟨s', by rw [returns, accepted.1], accepted.2⟩
  · rw [returns, rejected] at passes
    cases passes

end Naive

end SystemsLabs.Driver
