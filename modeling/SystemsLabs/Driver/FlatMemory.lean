/-
# SystemsLabs.Driver.FlatMemory -- the accesses of the emulation

`contents` is what the emulation holds: the bytes of the heap that a read may return, and the memory
outside of what is reserved for the heap; `stored` has the bytes of the blocks that were not written
too.  An access that straddles two pages is an access to the first and one to the second;
`memWrite_inside` and `memRead_inside` say what it does to the bytes.
-/
import Mathlib.Tactic.Positivity
import SystemsLabs.Driver.SparsePages

namespace SystemsLabs.Driver

set_option autoImplicit false

open Theory.ByteMemory

namespace MemSystem

/-! ## Words -/

section Words

variable {a b : UInt64} {n k len : Nat}

theorem mask_toNat : ∀ n < 8, ((1 : UInt64) <<< UInt64.ofNat (8 * n) - 1).toNat = 2 ^ (8 * n) - 1 := by decide

theorem pow_256 (n : Nat) : 256 ^ n = 2 ^ (8 * n) := by rw [pow_mul]; rfl

theorem and_mask_toNat (small : n < 8) : (a &&& (1 <<< UInt64.ofNat (8 * n) - 1)).toNat = a.toNat % 256 ^ n := by
  rw [UInt64.toNat_and, mask_toNat n small, Nat.and_two_pow_sub_one_eq_mod, pow_256]

theorem lowBytes_toNat (le : len ≤ 8) : (lowBytes a len).toNat = a.toNat % 256 ^ len := by
  rw [lowBytes]
  split
  · next small => exact and_mask_toNat small
  · next all =>
    obtain rfl : len = 8 := by omega
    exact (Nat.mod_eq_of_lt a.toNat_lt).symm

theorem shift_toNat (small : n < 8) :
    (b <<< UInt64.ofNat (8 * n)).toNat = b.toNat % 256 ^ (8 - n) * 256 ^ n := by
  have amount : (UInt64.ofNat (8 * n)).toNat % 64 = 8 * n := by
    rw [UInt64.toNat_ofNat']
    omega
  have whole : 2 ^ 64 = 256 ^ (8 - n) * 256 ^ n := by
    rw [← pow_add, Nat.sub_add_cancel (Nat.le_of_lt small)]
    rfl
  rw [UInt64.toNat_shiftLeft, amount, Nat.shiftLeft_eq, ← pow_256, whole, Nat.mul_mod_mul_right]

/-- Two parts of a word, shifted together. -/
theorem join_toNat (small : n < 8) (low : a.toNat < 256 ^ n) :
    (a ||| b <<< UInt64.ofNat (8 * n)).toNat = a.toNat + 256 ^ n * (b.toNat % 256 ^ (8 - n)) := by
  rw [UInt64.toNat_or, shift_toNat small, Nat.or_comm, pow_256 n, ← Nat.shiftLeft_eq,
    ← Nat.shiftLeft_add_eq_or_of_lt (by rwa [← pow_256]), Nat.shiftLeft_eq, Nat.add_comm, Nat.mul_comm]

theorem join_low (small : n < 8) (le : n + k ≤ 8) (low : a.toNat < 256 ^ n) :
    (a ||| b <<< UInt64.ofNat (8 * n)).toNat % 256 ^ (n + k) = a.toNat + 256 ^ n * (b.toNat % 256 ^ k) := by
  have high : 256 ^ k ∣ 256 ^ (8 - n) := pow_dvd_pow 256 (by omega)
  rw [join_toNat small low, pow_add, Nat.mod_mul, Nat.add_mul_mod_self_left, Nat.mod_eq_of_lt low,
    Nat.add_mul_div_left _ _ (by positivity), Nat.div_eq_of_lt low, Nat.zero_add, Nat.mod_mod_of_dvd _ high]

end Words

/-! ## The heap -/

/-- The invariant of the memory system. -/
structure Valid (s : MemSystem) : Prop where
  sparse : s.sparse = true
  heap : s.heap = sparseHeapStart
  top : s.memMaxAddr = sparseHeapStart + maxSparseHeap
  low : s.heap ≤ s.memBrk
  high : s.memBrk ≤ s.memMaxAddr
  chained : Chained s

/-- The range is in the heap. -/
def Inside (s : MemSystem) (a n : Nat) : Prop := s.heap ≤ a ∧ a + n ≤ s.memBrk

section Heap

variable {s s' : MemSystem} {a n x : Nat}

theorem top_lt : sparseHeapStart + maxSparseHeap < 2 ^ 63 := by decide

theorem Valid.brk_lt (valid : Valid s) : s.memBrk < 2 ^ 63 := by
  have := top_lt
  have := valid.top
  have := valid.high
  omega

theorem Valid.of_same (valid : Valid s) (same : SameHeap s s') (chained : Chained s') : Valid s' := by
  obtain ⟨sparse, heap, top, low, high, -⟩ := valid
  refine ⟨same.sparse.trans sparse, same.heap.trans heap, same.memMaxAddr.trans top, ?_, ?_, chained⟩
  · rwa [same.heap, same.memBrk]
  · rwa [same.memBrk, same.memMaxAddr]

theorem Inside.low (inside : s.Inside a n) (valid : Valid s) : sparseHeapStart ≤ a := by
  rw [← valid.heap]
  exact inside.1

theorem Inside.fits (inside : s.Inside a n) (valid : Valid s) : a + n < 2 ^ 63 :=
  Nat.lt_of_le_of_lt inside.2 valid.brk_lt

theorem Inside.emulated (inside : s.Inside a n) (valid : Valid s) : s.Emulated a n := by
  refine ⟨valid.sparse, inside.1, ?_⟩
  rw [ptrAdd_eq ((inside.fits valid).trans (by decide))]
  exact inside.2

/-- The range is part of what is reserved for the heap. -/
theorem Inside.reserved (inside : s.Inside a n) (valid : Valid s) (lo : a ≤ x) (hi : x < a + n) :
    s.heap ≤ x ∧ x < s.memMaxAddr := by
  have := valid.high
  have := inside.1
  have := inside.2
  omega

end Heap

/-! ## Contents -/

instance (s : MemSystem) (x : Nat) : Decidable (s.Marked x) := inferInstanceAs (Decidable (_ ∧ (_ = _ ∨ _ = _)))

/-- The byte of the heap that a read returns. -/
def byteAt (s : MemSystem) : PartialMem := fun x => if s.Marked x then some (s.rawByte x) else none

/-- The memory that a program sees. -/
def contents (s : MemSystem) : PartialMem := fun x =>
  if s.heap ≤ x ∧ x < s.memMaxAddr then s.byteAt x else some (s.outside x)

/-- The bytes of the memory, also those of the heap that a read does not return: a page that has no
block has none. -/
def stored (s : MemSystem) : PartialMem := fun x =>
  if s.heap ≤ x ∧ x < s.memMaxAddr then if s.blockOf (idOf x) = 0 then none else some (s.rawByte x)
  else some (s.outside x)

section Contents

variable {s s' : MemSystem} {x a n : Nat}

theorem byteAt_of (marked : s.Marked x) : s.byteAt x = some (s.rawByte x) := if_pos marked

theorem marked_iff : s.Marked x ↔ s.byteAt x ≠ none := by
  rw [byteAt]
  split <;> simp_all

theorem rawByte_of {v : UInt8} (written : s.byteAt x = some v) : s.rawByte x = v := by
  have marked : s.Marked x := marked_iff.mpr (by simp [written])
  rwa [byteAt_of marked, Option.some.injEq] at written

/-- A byte that stays marked and is kept. -/
theorem byteAt_kept {v : UInt8} (held : s.byteAt x = some v) (marks : s.Marked x → s'.Marked x)
    (kept : s.Marked x → s'.rawByte x = s.rawByte x) : s'.byteAt x = some v := by
  have marked : s.Marked x := marked_iff.mpr (by simp [held])
  rw [byteAt_of (marks marked), kept marked, rawByte_of held]

/-- Bytes depend only on the table and the pages. -/
theorem SameTable.byteAt_eq (same : SameTable s s') (pages : s'.pages = s.pages)
    (build : s'.noCheckUB = s.noCheckUB) : s'.byteAt = s.byteAt := by
  funext x
  have marks : s'.Marked x ↔ s.Marked x := by rw [Marked, Marked, same.blockOf_eq, pages, build]
  have raw : s'.rawByte x = s.rawByte x := by rw [rawByte, rawByte, same.blockOf_eq, pages]
  rw [byteAt, byteAt, raw]
  exact if_congr marks rfl rfl

/-- In the heap the program sees the bytes of the pages. -/
theorem Inside.byteAt_eq (inside : s.Inside a n) (valid : Valid s) {x : Nat} (lo : a ≤ x) (hi : x < a + n) :
    s.byteAt x = s.contents x := by
  rw [contents, if_pos (inside.reserved valid lo hi)]

end Contents

/-! ## Writes to the heap -/

/-- The low bytes of a number were written from an address on. -/
structure Wrote (s s' : MemSystem) (a n v : Nat) : Prop where
  chained : Chained s'
  same : SameHeap s s'
  outside : s'.outside = s.outside
  bytes : ∀ x w, sparseHeapStart ≤ x → s.byteAt.write a n v x = some w → s'.byteAt x = some w
  frame : ∀ x, sparseHeapStart ≤ x → x < a ∨ a + n ≤ x → s.blockOf (idOf x) ≠ 0 →
    s'.blockOf (idOf x) = s.blockOf (idOf x) ∧ s'.rawByte x = s.rawByte x
  room : ∀ ids, (∀ x, a ≤ x → x < a + n → idOf x ∈ ids) → Room s ids → Room s' ids

section Writes

variable {s s' s'' : MemSystem} {a n k v size : Nat}

theorem Wrote.join (first : Wrote s s' a n v)
    (second : Wrote s' s'' (a + n) k (v / 256 ^ n)) : Wrote s s'' a (n + k) v := by
  refine ⟨second.chained, first.same.trans second.same, second.outside.trans first.outside, ?_, ?_, ?_⟩
  · intro x w low held
    apply second.bytes x w low
    rw [← PartialMem.write_write, PartialMem.write] at held
    rw [PartialMem.write]
    split at held
    · next inside => rwa [if_pos inside]
    · next outside =>
      rw [if_neg outside]
      exact first.bytes x w low held
  · intro x low out mapped
    obtain ⟨block, kept⟩ := first.frame x low (by omega) mapped
    obtain ⟨block', kept'⟩ := second.frame x low (by omega) (by rwa [block])
    exact ⟨block'.trans block, kept'.trans kept⟩
  · intro ids covered room
    apply second.room ids fun x lo hi => covered x (by omega) (by omega)
    exact first.room ids (fun x lo hi => covered x lo (by omega)) room

theorem store_sameTable (s : MemSystem) (p o n v : Nat) : SameTable s (s.store p o n v) := setBlock_sameTable rfl rfl

theorem store_initSet (s : MemSystem) (p o n v q : Nat) :
    ((s.store p o n v).pages q).initSet = (s.pages q).initSet := by
  by_cases own : q = p
  · rw [own, store, setBlock_self]
  · rw [store, setBlock_other own]

theorem store_marked {p o x : Nat} : (s.store p o n v).Marked x ↔ s.Marked x := by
  rw [Marked, Marked, (store_sameTable ..).blockOf_eq, store_initSet]
  rfl

/-- A store to the block of a page is a store to the addresses of the page. -/
theorem store_rawByte {x : Nat} (chained : Chained s) (low : sparseHeapStart ≤ a) (low' : sparseHeapStart ≤ x)
    (mapped : s.blockOf (idOf a) ≠ 0) (within : offsetOf a + n ≤ sparsePageSize) :
    (s.store (s.blockOf (idOf a)) (offsetOf a) n v).rawByte x = writeLE s.rawByte a n v x := by
  rw [rawByte, (store_sameTable ..).blockOf_eq]
  by_cases page : idOf x = idOf a
  · rw [page, store, setBlock_self]
    dsimp only
    have place := place_eq low
    have place' := place_eq low'
    rw [page] at place'
    by_cases inside : a ≤ x ∧ x < a + n
    · have here := (range_iff low low' page).mp inside
      have offset : offsetOf x - offsetOf a = x - a := by omega
      rw [writeLE_inside _ _ _ _ inside.1 inside.2, writeLE_inside _ _ _ _ here.1 here.2, offset]
    · rw [writeLE_outside s.rawByte a n v (by omega), writeLE_outside _ _ _ _ (by omega), rawByte, page]
  · have out : ¬ (a ≤ x ∧ x < a + n) := fun inside => page (idOf_of_range low within inside.1 inside.2)
    rw [store, setBlock_other (chained.blockOf_ne mapped page), writeLE_outside _ _ _ _ (by omega), rawByte]

/-- **A write to one page.** -/
theorem page_write (chained : Chained s) (low : sparseHeapStart ≤ a) (fits : a < 2 ^ 64) (positive : 0 < n)
    (part : n = min size (sparsePageSize - offsetOf a)) (v : Nat) :
    (s.getMem a size true = none ∧ s.blockOf (idOf a) = 0 ∧ s.numFreePages = 0) ∨
      ∃ block s', s.getMem a size true = some ((block, offsetOf a), s') ∧
        Wrote s (s'.store block (offsetOf a) n v) a n v := by
  rcases getMem_write chained low fits with failed | ⟨s', done, mapped⟩
  · exact Or.inl failed
  · refine Or.inr ⟨_, s', done, ?_⟩
    have same := store_sameTable s' (s'.blockOf (idOf a)) (offsetOf a) n v
    have small := offsetOf_lt a
    have touched : ∀ x, ((a ≤ x ∧ x < a + size) ∧ idOf x = idOf a) ↔ a ≤ x ∧ x < a + n := by
      intro x
      constructor
      · rintro ⟨⟨lo, hi⟩, page⟩
        refine ⟨lo, ?_⟩
        by_contra past
        exact idOf_ne_of_rest low (by omega) page
      · rintro ⟨lo, hi⟩
        exact ⟨⟨lo, by omega⟩, idOf_of_range low (by omega) lo hi⟩
    have raw : ∀ x, sparseHeapStart ≤ x →
        (s'.store (s'.blockOf (idOf a)) (offsetOf a) n v).rawByte x = writeLE s'.rawByte a n v x :=
      fun x low' => store_rawByte mapped.chained low low' mapped.block (by omega)
    refine ⟨same.chained mapped.chained, mapped.same.trans ⟨rfl, rfl, rfl, rfl, rfl, rfl⟩, mapped.outside, ?_, ?_, ?_⟩
    · intro x w low' held
      rw [PartialMem.write] at held
      split at held
      · next inside =>
        have mark := mapped.marks x low' (Or.inr ((touched x).mpr inside))
        rw [byteAt_of (store_marked.mpr mark), raw x low', writeLE_inside _ _ _ _ inside.1 inside.2, held]
      · next outside =>
        apply byteAt_kept held fun marked => store_marked.mpr (mapped.marks x low' (Or.inl marked))
        intro marked
        rw [raw x low', writeLE_outside _ _ _ _ (by omega), mapped.kept x marked.1]
    · intro x low' out block
      rw [raw x low', writeLE_outside _ _ _ _ out, same.blockOf_eq]
      exact ⟨mapped.blocks _ (Or.inr block), mapped.kept x block⟩
    · intro ids covered room
      have kept := mapped.room (Or.inl (covered a le_rfl (by omega))) room
      rw [Room] at kept ⊢
      rw [same.blockOf_eq]
      exact kept

theorem memWrite_eq {val : UInt64} {len : Nat} (emulated : s.Emulated a len) (low : sparseHeapStart ≤ a)
    (fits : a < 2 ^ 64) :
    s.memWrite a val len = (s.getMem a len true).bind fun ((block, off), s) =>
      if sparsePageSize - offsetOf a < len then
        ((s.store block off (sparsePageSize - offsetOf a) val.toNat).getMem
          (ptrAdd a (sparsePageSize - offsetOf a)) (len - (sparsePageSize - offsetOf a)) true).bind
          fun ((hblock, hoff), s) =>
            some (s.store hblock hoff (len - (sparsePageSize - offsetOf a))
              (val.toNat / 256 ^ (sparsePageSize - offsetOf a)))
      else some (s.store block off len val.toNat) := by
  rw [memWrite, if_pos emulated]
  simp only [offset_eq low fits]
  rfl

/-- **A write to the heap**, also where it straddles two pages.  It fails only for want of free pages. -/
theorem memWrite_inside (val : UInt64) {len : Nat} (valid : Valid s) (inside : s.Inside a len) (positive : 0 < len)
    (short : len ≤ 8) :
    (s.memWrite a val len = none ∧
        ∀ ids, (∀ x, a ≤ x → x < a + len → idOf x ∈ ids) → ¬ Room s ids) ∨
      ∃ s', s.memWrite a val len = some s' ∧ Wrote s s' a len val.toNat := by
  have low := inside.low valid
  have fits := inside.fits valid
  have small := offsetOf_lt a
  rw [memWrite_eq (inside.emulated valid) low (by omega)]
  by_cases straddles : sparsePageSize - offsetOf a < len
  · rcases page_write (n := sparsePageSize - offsetOf a) valid.chained low (by omega) (by omega)
      (Nat.min_eq_right (Nat.le_of_lt straddles)).symm val.toNat with ⟨failed, full⟩ | ⟨block, s₁, done, first⟩
    · refine Or.inl ⟨by rw [failed, Option.bind_none], fun ids covered room => ?_⟩
      exact room.some (covered a le_rfl (by omega)) full
    · rw [done, Option.bind_some]
      dsimp only
      rw [if_pos straddles, ptrAdd_eq (by omega)]
      have part : len - (sparsePageSize - offsetOf a) = min (len - (sparsePageSize - offsetOf a))
          (sparsePageSize - offsetOf (a + (sparsePageSize - offsetOf a))) := by
        have page : sparsePageSize = 1024 := rfl
        rw [(of_add_rest low).2]
        omega
      rcases page_write first.chained (by omega) (by omega) (by omega) part
        (val.toNat / 256 ^ (sparsePageSize - offsetOf a)) with ⟨failed, full⟩ | ⟨block', s₂, done', second⟩
      · refine Or.inl ⟨by rw [failed, Option.bind_none], fun ids covered room => ?_⟩
        have room' := first.room ids (fun x lo hi => covered x lo (by omega)) room
        exact room'.some (covered _ (Nat.le_add_right ..) (by omega)) full
      · have whole : len = sparsePageSize - offsetOf a + (len - (sparsePageSize - offsetOf a)) := by omega
        rw [done', Option.bind_some]
        refine Or.inr ⟨_, rfl, ?_⟩
        have joined := first.join second
        rwa [← whole] at joined
  · rcases page_write (n := len) valid.chained low (by omega) positive (Nat.min_eq_left (by omega)).symm val.toNat with
      ⟨failed, full⟩ | ⟨block, s₁, done, wrote⟩
    · refine Or.inl ⟨by rw [failed, Option.bind_none], fun ids covered room => ?_⟩
      exact room.some (covered a le_rfl (by omega)) full
    · refine Or.inr ⟨_, ?_, wrote⟩
      rw [done, Option.bind_some]
      dsimp only
      rw [if_neg straddles]

end Writes

/-! ## Reads of the heap -/

/-- A read of a range; it changes no byte. -/
structure Looked (s s' : MemSystem) (a n : Nat) : Prop where
  chained : Chained s'
  same : SameHeap s s'
  outside : s'.outside = s.outside
  bytes : ∀ x w, sparseHeapStart ≤ x → s.byteAt x = some w → s'.byteAt x = some w
  room : s.byteAt.Known a n → ∀ ids, Room s ids → Room s' ids

section Reads

variable (behind : MemSystem → Nat → Mem) {s s' s'' : MemSystem} {a n k size : Nat}

theorem Looked.known (looked : Looked s s' a n) {b : Nat} (low : sparseHeapStart ≤ b) (known : s.byteAt.Known b k) :
    s'.byteAt.Known b k := by
  intro x lo hi
  obtain ⟨w, held⟩ := Option.ne_none_iff_exists'.mp (known x lo hi)
  rw [looked.bytes x w (by omega) held]
  exact Option.some_ne_none w

theorem Looked.join (low : sparseHeapStart ≤ a) (first : Looked s s' a n) (second : Looked s' s'' (a + n) k) :
    Looked s s'' a (n + k) := by
  refine ⟨second.chained, first.same.trans second.same, second.outside.trans first.outside, ?_, ?_⟩
  · intro x w low' held
    exact second.bytes x w low' (first.bytes x w low' held)
  · intro known ids room
    exact second.room (first.known (by omega) known.second) ids (first.room known.first ids room)

/-- The low bytes of a load from the block of a page. -/
theorem load_low (low : sparseHeapStart ≤ a) (short : n ≤ 8) (within : offsetOf a + n ≤ sparsePageSize) :
    (s.load behind (s.blockOf (idOf a)) (offsetOf a)).toNat % 256 ^ n = readLE s.rawByte a n := by
  rw [load, UInt64.toNat_ofNat', Nat.mod_eq_of_lt (b := 2 ^ 64) (readLE_lt _ _ 8), readLE_mod _ _ short]
  apply readLE_shift
  intro i lt
  have place := of_add_lt (n := i) low (by omega)
  rw [if_pos (by omega), rawByte, place.1, place.2]

/-- **A read of one page.** -/
theorem page_read {block off : Nat} (chained : Chained s) (low : sparseHeapStart ≤ a) (fits : a < 2 ^ 64) (positive : 0 < n)
    (done : s.getMem a size false = some ((block, off), s')) (short : n ≤ 8)
    (within : offsetOf a + n ≤ sparsePageSize) :
    Looked s s' a n ∧ ∃ m, s.byteAt.Agrees m a n ∧ (s'.load behind block off).toNat % 256 ^ n = readLE m a n := by
  obtain ⟨place, mapped⟩ := getMem_read chained low fits done
  obtain ⟨inBlock, atOffset⟩ := Prod.mk.inj place
  have bytes : ∀ x w, sparseHeapStart ≤ x → s.byteAt x = some w → s'.byteAt x = some w := fun x w low' held =>
    byteAt_kept held (fun marked => mapped.marks x low' (Or.inl marked)) fun marked => mapped.kept x marked.1
  refine ⟨⟨mapped.chained, mapped.same, mapped.outside, bytes, fun known ids room => ?_⟩, s'.rawByte, ?_, ?_⟩
  · exact mapped.room (Or.inr (marked_iff.mpr (known a le_rfl (by omega))).1) room
  · intro x v lo _ written
    exact rawByte_of (bytes x v (by omega) written)
  · rw [inBlock, atOffset, load_low behind low short within]

theorem straddles_iff {len : Nat} (low : sparseHeapStart ≤ a) (positive : 0 < len) (short : len ≤ 8) :
    idOf a ≠ idOf (a + len - 1) ↔ sparsePageSize - offsetOf a < len := by
  have page : sparsePageSize = 1024 := rfl
  constructor
  · intro other
    by_contra within
    exact other (idOf_of_range (n := len) low (by omega) (by omega) (by omega)).symm
  · intro past same
    exact idOf_ne_of_rest low (by omega) same.symm

theorem memRead_eq {len : Nat} (emulated : s.Emulated a len) (low : sparseHeapStart ≤ a)
    (fits : a + len < 2 ^ 64) (positive : 0 < len) (short : len ≤ 8) :
    s.memRead behind a len = (s.getMem a len false).bind fun ((block, off), s) =>
      if sparsePageSize - offsetOf a < len then
        (s.getMem (ptrAdd a (sparsePageSize - offsetOf a)) (len - (sparsePageSize - offsetOf a)) false).bind
          fun ((hblock, hoff), s') =>
            some (lowBytes (s.load behind block off &&&
                (1 <<< UInt64.ofNat (8 * (sparsePageSize - offsetOf a)) - 1) |||
              s'.load behind hblock hoff <<< UInt64.ofNat (8 * (sparsePageSize - offsetOf a))) len, s')
      else some (lowBytes (s.load behind block off) len, s) := by
  have last : pageId (ptrSub (ptrAdd a len) 1) = idOf (a + len - 1) := by
    rw [ptrAdd_eq fits, ptrSub_eq (by omega) fits, pageId_eq (by omega) (by omega)]
  have fits' : a < 2 ^ 64 := by omega
  rw [memRead, if_pos emulated]
  simp only [offset_eq low fits', last]
  simp only [pageId_eq low fits', straddles_iff low positive short]
  rfl

/-- **A read of the heap**, also where it straddles two pages. -/
theorem memRead_inside {answer : UInt64} {len : Nat} (valid : Valid s) (inside : s.Inside a len) (positive : 0 < len)
    (short : len ≤ 8) (done : s.memRead behind a len = some (answer, s')) :
    Looked s s' a len ∧ ∃ m, s.byteAt.Agrees m a len ∧ answer.toNat = readLE m a len := by
  have low := inside.low valid
  have fits := inside.fits valid
  have small := offsetOf_lt a
  have page : sparsePageSize = 1024 := rfl
  rw [memRead_eq behind (inside.emulated valid) low (by omega) positive short, Option.bind_eq_some_iff] at done
  obtain ⟨⟨⟨block, off⟩, s₁⟩, first, done⟩ := done
  dsimp only at done
  by_cases straddles : sparsePageSize - offsetOf a < len
  · rw [if_pos straddles, ptrAdd_eq (by omega), Option.bind_eq_some_iff] at done
    obtain ⟨⟨⟨hblock, hoff⟩, s₂⟩, second, done⟩ := done
    obtain ⟨rfl, rfl⟩ := Prod.mk.inj (Option.some.inj done)
    have rest := (of_add_rest low).2
    obtain ⟨looked, m, agrees, lowPart⟩ := page_read (n := sparsePageSize - offsetOf a) behind valid.chained low (by omega)
      (by omega) first (by omega) (by omega)
    obtain ⟨looked', m', agrees', highPart⟩ := page_read (n := len - (sparsePageSize - offsetOf a)) behind
      looked.chained (by omega) (by omega) (by omega) second (by omega) (by omega)
    have agrees' : s.byteAt.Agrees m' (a + (sparsePageSize - offsetOf a)) (len - (sparsePageSize - offsetOf a)) :=
      fun x v lo hi written => agrees' x v lo hi (looked.bytes x v (by omega) written)
    obtain ⟨whole, both, value⟩ := agrees.join agrees'
    have joined := looked.join low looked'
    have parts : sparsePageSize - offsetOf a + (len - (sparsePageSize - offsetOf a)) = len := by omega
    have masked := and_mask_toNat (a := s₁.load behind block off) (n := sparsePageSize - offsetOf a) (by omega)
    have word := join_low (b := s₂.load behind hblock hoff) (k := len - (sparsePageSize - offsetOf a))
      (show sparsePageSize - offsetOf a < 8 by omega) (by omega) (by rw [masked, lowPart]; exact readLE_lt ..)
    rw [masked, lowPart, highPart, ← value, parts] at word
    rw [parts] at both joined
    refine ⟨joined, whole, both, ?_⟩
    rw [lowBytes_toNat short, word]
  · rw [if_neg straddles] at done
    obtain ⟨rfl, rfl⟩ := Prod.mk.inj (Option.some.inj done)
    obtain ⟨looked, m, agrees, value⟩ := page_read (n := len) behind valid.chained low (by omega) positive first short (by omega)
    refine ⟨looked, m, agrees, ?_⟩
    rw [lowBytes_toNat short, value]

/-- It returns where the bytes were written. -/
theorem memRead_known {len : Nat} (valid : Valid s) (inside : s.Inside a len) (positive : 0 < len) (short : len ≤ 8)
    (known : s.byteAt.Known a len) :
    ∃ answer s', s.memRead behind a len = some (answer, s') := by
  have low := inside.low valid
  have fits := inside.fits valid
  have small := offsetOf_lt a
  have page : sparsePageSize = 1024 := rfl
  rw [memRead_eq behind (inside.emulated valid) low (by omega) positive short]
  obtain ⟨⟨block, off⟩, s₁, first⟩ := getMem_marked valid.chained low (by omega) positive fun x lo hi _ =>
    marked_iff.mpr (known x lo hi)
  rw [first, Option.bind_some]
  dsimp only
  by_cases straddles : sparsePageSize - offsetOf a < len
  · obtain ⟨looked, -⟩ := page_read (n := sparsePageSize - offsetOf a) behind valid.chained low (by omega) (by omega)
      first (by omega) (by omega)
    have part : sparsePageSize - offsetOf a + (len - (sparsePageSize - offsetOf a)) = len := by omega
    rw [← part] at known
    have known' := looked.known (by omega) known.second
    rw [if_pos straddles, ptrAdd_eq (by omega)]
    obtain ⟨⟨hblock, hoff⟩, s₂, second⟩ := getMem_marked looked.chained (by omega) (by omega) (by omega)
      fun x lo hi _ => marked_iff.mpr (known' x lo hi)
    rw [second, Option.bind_some]
    exact ⟨_, _, rfl⟩
  · rw [if_neg straddles]
    exact ⟨_, _, rfl⟩

end Reads

end MemSystem

end SystemsLabs.Driver
