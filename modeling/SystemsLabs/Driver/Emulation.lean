/-
# SystemsLabs.Driver.Emulation -- the sparse heap is a flat memory

The operations of `memlib.c` in sparse mode, and the steps of a flat memory that they are.  A byte
of the heap holds nothing after `mem_reset_brk`, and then what was written to it last; memory that
is not reserved for the heap is memory.  `emulation_refines` is a forward simulation: the emulation
holds what the flat memory holds.

The word loops of `mem_memcpy` and `mem_memset` are chains of accesses: `copyLoop_done` and
`setLoop_done` follow from `memRead_done` and `memWrite_done` by induction on the fuel.
-/
import SystemsLabs.Driver.FlatMemory
import SystemsLabs.Theory.Runs

namespace SystemsLabs.Driver

set_option autoImplicit false

open Theory.ByteMemory Theory.PointerPath Theory.Runs

namespace MemSystem

/-! ## Placement -/

/-- The range has no byte of what is reserved for the heap. -/
def Away (s : MemSystem) (a n : Nat) : Prop := (a + n ≤ s.heap ∨ s.memMaxAddr ≤ a) ∧ a + n < 2 ^ 64

def Placed (s : MemSystem) (a n : Nat) : Prop := s.Inside a n ∨ s.Away a n

instance (s : MemSystem) (a n : Nat) : Decidable (s.Placed a n) :=
  inferInstanceAs (Decidable ((_ ≤ _ ∧ _ ≤ _) ∨ ((_ ≤ _ ∨ _ ≤ _) ∧ _ < _)))

/-- What `mem_init` sets up. -/
structure SparseMode (s : MemSystem) : Prop where
  sparse : s.sparse = true
  heap : s.heap = sparseHeapStart
  top : s.memMaxAddr = sparseHeapStart + maxSparseHeap
  buckets : 0 < s.numBuckets

/-- The pages of the heap that the range touches. -/
def pagesOf (s : MemSystem) (a n : Nat) : Finset Nat :=
  ((Finset.range n).filter fun i => s.heap ≤ a + i ∧ a + i < s.memMaxAddr).image fun i => idOf (a + i)

/-- These pages are among `ids`. -/
def Covers (s : MemSystem) (a n : Nat) (ids : Finset Nat) : Prop :=
  ∀ x, a ≤ x → x < a + n → s.heap ≤ x → x < s.memMaxAddr → idOf x ∈ ids

section Placement

variable {s s' : MemSystem} {a n k : Nat} {ids : Finset Nat}

theorem Placed.fits (placed : s.Placed a n) (valid : Valid s) : a + n < 2 ^ 64 := by
  have := valid.brk_lt
  rcases placed with inside | away
  · have := inside.2
    omega
  · exact away.2

theorem Placed.first (placed : s.Placed a (n + k)) : s.Placed a n := by
  rcases placed with ⟨lo, hi⟩ | ⟨⟨before⟩ | ⟨after⟩, fits⟩
  · exact Or.inl ⟨lo, by omega⟩
  · exact Or.inr ⟨by omega, by omega⟩
  · exact Or.inr ⟨by omega, by omega⟩

theorem Placed.second (placed : s.Placed a (n + k)) : s.Placed (a + n) k := by
  rcases placed with ⟨lo, hi⟩ | ⟨before | after, fits⟩
  · exact Or.inl ⟨by omega, by omega⟩
  · exact Or.inr ⟨by omega, by omega⟩
  · exact Or.inr ⟨by omega, by omega⟩

theorem Placed.of_same (placed : s.Placed a n) (same : SameHeap s s') : s'.Placed a n := by
  unfold Placed Inside Away at *
  rwa [same.heap, same.memBrk, same.memMaxAddr]

theorem Covers.mem (covers : s.Covers a n ids) {x : Nat} (lo : a ≤ x) (hi : x < a + n)
    (reserved : s.heap ≤ x ∧ x < s.memMaxAddr) : idOf x ∈ ids := covers x lo hi reserved.1 reserved.2

theorem Covers.of_same (covers : s.Covers a n ids) (same : SameHeap s s') : s'.Covers a n ids := by
  unfold Covers at *
  rwa [same.heap, same.memMaxAddr]

theorem Covers.first (covers : s.Covers a (n + k) ids) : s.Covers a n ids :=
  fun x lo hi => covers x lo (by omega)

theorem Covers.second (covers : s.Covers a (n + k) ids) : s.Covers (a + n) k ids :=
  fun x lo hi => covers x (by omega) (by omega)

theorem covers_pagesOf (s : MemSystem) (a n : Nat) : s.Covers a n (s.pagesOf a n) := by
  intro x lo hi low high
  obtain ⟨i, rfl⟩ := Nat.exists_eq_add_of_le lo
  rw [pagesOf, Finset.mem_image]
  exact ⟨i, Finset.mem_filter.mpr ⟨Finset.mem_range.mpr (by omega), low, high⟩, rfl⟩

theorem not_emulated (away : s.Away a n) (valid : Valid s) (positive : 0 < n) : ¬ s.Emulated a n := by
  rintro ⟨-, low, high⟩
  rw [ptrAdd_eq away.2] at high
  have := valid.high
  have := away.1
  omega

end Placement

/-! ## One access -/

section Access

variable (behind : MemSystem → Nat → Mem) {s s' : MemSystem} {a len : Nat}

theorem contents_of_bytes (valid : Valid s) (same : SameHeap s s') (outside : s'.outside = s.outside)
    (bytes : ∀ x w, sparseHeapStart ≤ x → s.byteAt x = some w → s'.byteAt x = some w) :
    s.contents.Sub s'.contents := by
  intro x w held
  rw [contents] at held ⊢
  rw [same.heap, same.memMaxAddr, outside]
  split at held
  · next reserved =>
    rw [if_pos reserved]
    exact bytes x w (by rw [← valid.heap]; exact reserved.1) held
  · next free => rwa [if_neg free]

theorem Wrote.contents {v : Nat} (valid : Valid s) (inside : s.Inside a len) (wrote : Wrote s s' a len v) :
    (s.contents.write a len v).Sub s'.contents := by
  intro x w held
  have := valid.high
  have := inside.1
  have := inside.2
  rw [MemSystem.contents, wrote.same.heap, wrote.same.memMaxAddr, wrote.outside]
  by_cases reserved : s.heap ≤ x ∧ x < s.memMaxAddr
  · rw [PartialMem.write, MemSystem.contents, if_pos reserved] at held
    rw [if_pos reserved]
    exact wrote.bytes x w (by rw [← valid.heap]; exact reserved.1) held
  · rw [PartialMem.write_outside (by omega), MemSystem.contents, if_neg reserved] at held
    rwa [if_neg reserved]

/-- The stored bytes of a write, and the others as they were. -/
theorem Wrote.stored {v : Nat} (valid : Valid s) (inside : s.Inside a len) (wrote : Wrote s s' a len v) :
    (s.stored.write a len v).Sub s'.stored := by
  intro x w held
  rw [MemSystem.stored, wrote.same.heap, wrote.same.memMaxAddr, wrote.outside]
  by_cases reserved : s.heap ≤ x ∧ x < s.memMaxAddr
  · have low : sparseHeapStart ≤ x := by rw [← valid.heap]; exact reserved.1
    rw [if_pos reserved]
    by_cases here : a ≤ x ∧ x < a + len
    · rw [PartialMem.write, if_pos here] at held
      have written := wrote.bytes x w low (by rw [PartialMem.write, if_pos here, held])
      have marked : s'.Marked x := marked_iff.mpr (by simp [written])
      rw [if_neg marked.1, rawByte_of written]
    · rw [PartialMem.write_outside (by omega), MemSystem.stored, if_pos reserved] at held
      split at held
      · cases held
      · next mapped =>
        obtain ⟨block, kept⟩ := wrote.frame x low (by omega) mapped
        rw [block, if_neg mapped, kept, held]
  · have out : ¬ (a ≤ x ∧ x < a + len) := fun here => reserved (inside.reserved valid here.1 here.2)
    rw [PartialMem.write_outside (by omega), MemSystem.stored, if_neg reserved] at held
    rwa [if_neg reserved]

/-- A store to memory that is not of the heap. -/
theorem write_away {bytes : PartialMem} {v : Nat} (away : s.Away a len) :
    (fun x => if s.heap ≤ x ∧ x < s.memMaxAddr then bytes x else some (writeLE s.outside a len v x)) =
      PartialMem.write (fun x => if s.heap ≤ x ∧ x < s.memMaxAddr then bytes x else some (s.outside x)) a len v := by
  funext x
  have := away.1
  rw [PartialMem.write]
  dsimp only [writeLE]
  by_cases reserved : s.heap ≤ x ∧ x < s.memMaxAddr
  · rw [if_pos reserved, if_neg (by omega), if_pos reserved]
  · rw [if_neg reserved, if_neg reserved]
    split <;> rfl

theorem contents_away {v : Nat} (away : s.Away a len) :
    ({ s with outside := writeLE s.outside a len v } : MemSystem).contents = s.contents.write a len v := by
  have bytes : ({ s with outside := writeLE s.outside a len v } : MemSystem).byteAt = s.byteAt :=
    SameTable.byteAt_eq ⟨rfl, rfl, rfl, rfl, rfl, fun _ => rfl, fun _ => rfl⟩ rfl rfl
  unfold contents
  rw [bytes]
  exact write_away away

theorem stored_away {v : Nat} (away : s.Away a len) :
    ({ s with outside := writeLE s.outside a len v } : MemSystem).stored = s.stored.write a len v := by
  have table : SameTable s { s with outside := writeLE s.outside a len v } :=
    ⟨rfl, rfl, rfl, rfl, rfl, fun _ => rfl, fun _ => rfl⟩
  have raw : ({ s with outside := writeLE s.outside a len v } : MemSystem).rawByte = s.rawByte := by
    funext x
    rw [rawByte, rawByte, table.blockOf_eq]
  unfold stored
  rw [table.blockOf_eq, raw]
  exact write_away away

/-- What every operation keeps. -/
structure Kept (s s' : MemSystem) : Prop where
  valid : Valid s'
  same : SameHeap s s'

theorem Kept.trans {s'' : MemSystem} (first : Kept s s') (second : Kept s' s'') : Kept s s'' :=
  ⟨second.valid, first.same.trans second.same⟩

variable (valid : Valid s) (placed : s.Placed a len) (positive : 0 < len) (short : len ≤ 8)

include valid placed positive short

/-- **A write** changes its bytes and no other. -/
theorem memWrite_done {val : UInt64} (done : s.memWrite a val len = some s') :
    Kept s s' ∧ (s.contents.write a len val.toNat).Sub s'.contents ∧
      (s.stored.write a len val.toNat).Sub s'.stored ∧ ∀ ids, s.Covers a len ids → Room s ids → Room s' ids := by
  rcases placed with inside | away
  · have low : sparseHeapStart ≤ s.heap := Nat.le_of_eq valid.heap.symm
    have fits : s.memBrk < 2 ^ 64 := valid.brk_lt.trans (by decide)
    rcases memWrite_inside val valid inside positive short with ⟨failed, -⟩ | ⟨s₁, wrote, result⟩
    · rw [failed] at done
      cases done
    · obtain rfl := Option.some.inj (wrote.symm.trans done)
      refine ⟨⟨valid.of_same result.same result.chained, result.same⟩, result.contents valid inside,
        result.stored valid inside, ?_⟩
      intro ids covers room
      exact result.room ids (fun x lo hi => covers.mem lo hi (inside.reserved valid lo hi)) room
  · rw [memWrite, if_neg (not_emulated away valid positive)] at done
    obtain rfl := Option.some.inj done
    have table : SameTable s { s with outside := writeLE s.outside a len val.toNat } :=
      ⟨rfl, rfl, rfl, rfl, rfl, fun _ => rfl, fun _ => rfl⟩
    have same : SameHeap s { s with outside := writeLE s.outside a len val.toNat } := ⟨rfl, rfl, rfl, rfl, rfl, rfl⟩
    refine ⟨⟨valid.of_same same (table.chained valid.chained), same⟩, ?_, ?_, ?_⟩
    · rw [contents_away away]
      exact .refl _
    · rw [stored_away away]
      exact .refl _
    · intro ids _ room
      rw [Room, table.blockOf_eq]
      exact room

/-- It returns where there are free pages. -/
theorem memWrite_returns (val : UInt64) {ids : Finset Nat} (covers : s.Covers a len ids) (room : Room s ids) :
    ∃ s', s.memWrite a val len = some s' := by
  rcases placed with inside | away
  · have low : sparseHeapStart ≤ s.heap := Nat.le_of_eq valid.heap.symm
    have fits : s.memBrk < 2 ^ 64 := valid.brk_lt.trans (by decide)
    rcases memWrite_inside val valid inside positive short with ⟨-, full⟩ | ⟨s₁, wrote, -⟩
    · exact absurd room (full ids fun x lo hi => covers.mem lo hi (inside.reserved valid lo hi))
    · exact ⟨s₁, wrote⟩
  · rw [memWrite, if_neg (not_emulated away valid positive)]
    exact ⟨_, rfl⟩

/-- **A read** answers the bytes that were written, and changes none. -/
theorem memRead_done {answer : UInt64} (done : s.memRead behind a len = some (answer, s')) :
    Kept s s' ∧ s.contents.Sub s'.contents ∧ s.contents.Reads a len answer.toNat ∧
      (s.contents.Known a len → ∀ ids, Room s ids → Room s' ids) := by
  rcases placed with inside | away
  · have low : sparseHeapStart ≤ s.heap := Nat.le_of_eq valid.heap.symm
    have fits : s.memBrk < 2 ^ 64 := valid.brk_lt.trans (by decide)
    obtain ⟨looked, m, agrees, value⟩ := memRead_inside behind valid inside positive short done
    have bytes : ∀ x, a ≤ x → x < a + len → s.byteAt x = s.contents x := fun x lo hi => inside.byteAt_eq valid lo hi
    refine ⟨⟨valid.of_same looked.same looked.chained, looked.same⟩,
      contents_of_bytes valid looked.same looked.outside looked.bytes, ?_, fun known => looked.room (known.congr bytes)⟩
    have agrees' : s.contents.Agrees m a len := fun x v lo hi written => agrees x v lo hi ((bytes x lo hi).trans written)
    rw [value]
    exact agrees'.reads
  · rw [memRead, if_neg (not_emulated away valid positive)] at done
    obtain ⟨rfl, rfl⟩ := Prod.mk.inj (Option.some.inj done)
    refine ⟨⟨valid, .refl s⟩, .refl _, ?_, fun _ _ room => room⟩
    have agrees : s.contents.Agrees s.outside a len := by
      intro x v lo hi written
      have := away.1
      rw [contents, if_neg (by omega)] at written
      exact Option.some.inj written
    have wide : readLE s.outside a len < 2 ^ 64 :=
      (readLE_lt s.outside a len).trans_le (Nat.pow_le_pow_right (by decide) short : 256 ^ len ≤ 256 ^ 8)
    rw [lowBytes_toNat short, UInt64.toNat_ofNat', Nat.mod_eq_of_lt wide, Nat.mod_eq_of_lt (readLE_lt ..)]
    exact agrees.reads

/-- It returns where the bytes were written. -/
theorem memRead_returns (known : s.contents.Known a len) : ∃ answer s', s.memRead behind a len = some (answer, s') := by
  rcases placed with inside | away
  · have low : sparseHeapStart ≤ s.heap := Nat.le_of_eq valid.heap.symm
    have fits : s.memBrk < 2 ^ 64 := valid.brk_lt.trans (by decide)
    exact memRead_known behind valid inside positive short (known.congr fun x lo hi => inside.byteAt_eq valid lo hi)
  · rw [memRead, if_neg (not_emulated away valid positive)]
    exact ⟨_, _, rfl⟩

end Access

/-! ## The word loops -/

section Copy

variable (behind : MemSystem → Nat → Mem) {s s' : MemSystem} {dst src n k fuel : Nat}

/-- One round of the copy loop. -/
theorem copyRound_done {s₁ : MemSystem} {data : UInt64} (valid : Valid s) (toDst : s.Placed dst k) (toSrc : s.Placed src k)
    (positive : 0 < k) (short : k ≤ 8) (read : s.memRead behind src k = some (data, s₁))
    (write : s₁.memWrite dst data k = some s') :
    Kept s s' ∧ (s.contents.copy dst src k).Sub s'.contents := by
  obtain ⟨kept, same, reads, -⟩ := memRead_done behind valid toSrc positive short read
  obtain ⟨kept', written, -⟩ := memWrite_done kept.valid (toDst.of_same kept.same) positive short write
  exact ⟨kept.trans kept', (reads.copied.trans same.write).trans written⟩

theorem copyRound_returns {ids : Finset Nat} (valid : Valid s) (toDst : s.Placed dst k) (toSrc : s.Placed src k)
    (positive : 0 < k) (short : k ≤ 8) (known : s.contents.Known src k) (covers : s.Covers dst k ids) (room : Room s ids) :
    ∃ data s₁ s', s.memRead behind src k = some (data, s₁) ∧ s₁.memWrite dst data k = some s' ∧ Room s' ids := by
  obtain ⟨data, s₁, read⟩ := memRead_returns behind valid toSrc positive short known
  obtain ⟨kept, -, -, room'⟩ := memRead_done behind valid toSrc positive short read
  have covers' := covers.of_same kept.same
  obtain ⟨s', write⟩ := memWrite_returns kept.valid (toDst.of_same kept.same) positive short data covers' (room' known ids room)
  obtain ⟨-, -, -, room''⟩ := memWrite_done kept.valid (toDst.of_same kept.same) positive short write
  exact ⟨data, s₁, s', read, write, room'' ids covers' (room' known ids room)⟩

/-- **`mem_memcpy`** copies the bytes that were written. -/
theorem copyLoop_done (valid : Valid s) (toDst : s.Placed dst n) (toSrc : s.Placed src n)
    (apart : src + n ≤ dst ∨ dst + n ≤ src) (done : copyLoop behind fuel s dst src n = some s') :
    Kept s s' ∧ (s.contents.copy dst src n).Sub s'.contents := by
  induction fuel generalizing s dst src n with
  | zero => cases done
  | succ fuel ih =>
      rw [copyLoop] at done
      split at done
      · next word =>
        obtain ⟨rest, rfl⟩ := Nat.exists_eq_add_of_le word
        obtain ⟨⟨data, s₁⟩, read, done⟩ := Option.bind_eq_some_iff.mp done
        obtain ⟨s₂, write, done⟩ := Option.bind_eq_some_iff.mp done
        have fits := toDst.fits valid
        have fits' := toSrc.fits valid
        obtain ⟨kept, copied⟩ := copyRound_done behind valid toDst.first toSrc.first (by decide) le_rfl read write
        rw [ptrAdd_eq (by omega), ptrAdd_eq (by omega), Nat.add_sub_cancel_left] at done
        obtain ⟨kept', copied'⟩ := ih kept.valid (toDst.second.of_same kept.same) (toSrc.second.of_same kept.same)
          (by omega) done
        refine ⟨kept.trans kept', ?_⟩
        rw [← PartialMem.copy_copy _ apart]
        exact copied.copy.trans copied'
      · next tail =>
        split at done
        · next positive =>
          obtain ⟨⟨data, s₁⟩, read, write⟩ := Option.bind_eq_some_iff.mp done
          exact copyRound_done behind valid toDst toSrc (by omega) (by omega) read write
        · next finished =>
          obtain rfl := Option.some.inj done
          obtain rfl : n = 0 := by omega
          refine ⟨⟨valid, .refl s⟩, ?_⟩
          rw [PartialMem.copy_none]
          exact .refl _

theorem copyLoop_returns {ids : Finset Nat} (enough : n < fuel) (valid : Valid s) (toDst : s.Placed dst n)
    (toSrc : s.Placed src n) (apart : src + n ≤ dst ∨ dst + n ≤ src) (known : s.contents.Known src n)
    (covers : s.Covers dst n ids) (room : Room s ids) : ∃ s', copyLoop behind fuel s dst src n = some s' := by
  induction fuel generalizing s dst src n with
  | zero => exact absurd enough (Nat.not_lt_zero n)
  | succ fuel ih =>
      rw [copyLoop]
      split
      · next word =>
        obtain ⟨rest, rfl⟩ := Nat.exists_eq_add_of_le word
        have fits := toDst.fits valid
        have fits' := toSrc.fits valid
        obtain ⟨data, s₁, s₂, read, write, room'⟩ := copyRound_returns behind valid toDst.first toSrc.first (by decide)
          le_rfl known.first covers.first room
        obtain ⟨kept, copied⟩ := copyRound_done behind valid toDst.first toSrc.first (by decide) le_rfl read write
        have known' : s₂.contents.Known (src + 8) rest :=
          copied.known (known.second.congr fun x lo hi => PartialMem.copy_outside (by omega))
        obtain ⟨s', done⟩ := ih (by omega) kept.valid (toDst.second.of_same kept.same) (toSrc.second.of_same kept.same)
          (by omega) known' (covers.second.of_same kept.same) room'
        refine ⟨s', ?_⟩
        rw [read, Option.bind_eq_bind, Option.bind_some]
        dsimp only
        rw [write, Option.bind_eq_bind, Option.bind_some, ptrAdd_eq (by omega), ptrAdd_eq (by omega),
          Nat.add_sub_cancel_left, done]
      · next tail =>
        split
        · next positive =>
          obtain ⟨data, s₁, s₂, read, write, -⟩ := copyRound_returns behind valid toDst toSrc (by omega) (by omega)
            known covers room
          refine ⟨s₂, ?_⟩
          rw [read, Option.bind_eq_bind, Option.bind_some]
          exact write
        · exact ⟨s, rfl⟩

end Copy

section Set

variable {s s' : MemSystem} {dst n fuel : Nat} {data : UInt64} {c : UInt8}

/-- The word of `mem_memset` for each of the bytes. -/
theorem spread_bytes : ∀ b : Fin 256, ∀ i : Fin 8, UInt8.ofNat (((List.range 8).foldl (fun data i =>
    data ||| UInt64.ofNat b.val <<< UInt64.ofNat (8 * i)) 0).toNat / 256 ^ i.val) = UInt8.ofNat b.val := by
  decide +kernel

theorem spread_byte (c : UInt32) : ∀ i < 8, UInt8.ofNat ((spread c).toNat / 256 ^ i) = c.toUInt8 := by
  intro i lt
  have low : (c &&& 0xFF).toNat = c.toNat % 2 ^ 8 := by
    rw [UInt32.toNat_and]
    exact Nat.and_two_pow_sub_one_eq_mod c.toNat 8
  have byte : (c &&& 0xFF).toUInt64 = UInt64.ofNat (c.toNat % 2 ^ 8) := by
    rw [← low, ← UInt64.toNat_inj, UInt32.toNat_toUInt64, UInt64.toNat_ofNat', Nat.mod_eq_of_lt]
    exact (c &&& 0xFF).toNat_lt.trans (by decide)
  have all := spread_bytes ⟨c.toNat % 2 ^ 8, Nat.mod_lt _ (by decide)⟩ ⟨i, lt⟩
  rw [spread, byte, all, ← UInt8.toNat_inj, UInt8.toNat_ofNat', Nat.mod_mod, UInt32.toNat_toUInt8]

/-- **`mem_memset`** stores the byte everywhere. -/
theorem setLoop_done (bytes : ∀ i < 8, UInt8.ofNat (data.toNat / 256 ^ i) = c) (valid : Valid s) (toDst : s.Placed dst n)
    (done : setLoop fuel s dst data n = some s') : Kept s s' ∧ (s.contents.fill dst c n).Sub s'.contents := by
  induction fuel generalizing s dst n with
  | zero => cases done
  | succ fuel ih =>
      rw [setLoop] at done
      split at done
      · next word =>
        obtain ⟨rest, rfl⟩ := Nat.exists_eq_add_of_le word
        obtain ⟨s₁, write, done⟩ := Option.bind_eq_some_iff.mp done
        have fits := toDst.fits valid
        obtain ⟨kept, written, -⟩ := memWrite_done valid toDst.first (by decide) le_rfl write
        rw [ptrAdd_eq (by omega), Nat.add_sub_cancel_left] at done
        obtain ⟨kept', filled⟩ := ih kept.valid (toDst.second.of_same kept.same) done
        refine ⟨kept.trans kept', ?_⟩
        rw [PartialMem.write_same bytes] at written
        rw [← PartialMem.fill_fill]
        exact written.fill.trans filled
      · next tail =>
        split at done
        · next positive =>
          obtain ⟨kept, written, -⟩ := memWrite_done valid toDst (by omega) (by omega) done
          rw [PartialMem.write_same fun i lt => bytes i (by omega)] at written
          exact ⟨kept, written⟩
        · next finished =>
          obtain rfl := Option.some.inj done
          obtain rfl : n = 0 := by omega
          refine ⟨⟨valid, .refl s⟩, ?_⟩
          rw [PartialMem.fill_none]
          exact .refl _

theorem setLoop_returns {ids : Finset Nat} (enough : n < fuel) (valid : Valid s) (toDst : s.Placed dst n)
    (covers : s.Covers dst n ids) (room : Room s ids) : ∃ s', setLoop fuel s dst data n = some s' := by
  induction fuel generalizing s dst n with
  | zero => exact absurd enough (Nat.not_lt_zero n)
  | succ fuel ih =>
      rw [setLoop]
      split
      · next word =>
        obtain ⟨rest, rfl⟩ := Nat.exists_eq_add_of_le word
        have fits := toDst.fits valid
        obtain ⟨s₁, write⟩ := memWrite_returns valid toDst.first (by decide) le_rfl data covers.first room
        obtain ⟨kept, -, -, room'⟩ := memWrite_done valid toDst.first (by decide) le_rfl write
        obtain ⟨s', done⟩ := ih (by omega) kept.valid (toDst.second.of_same kept.same)
          (covers.second.of_same kept.same) (room' ids covers.first room)
        refine ⟨s', ?_⟩
        rw [write, Option.bind_eq_bind, Option.bind_some, ptrAdd_eq (by omega), Nat.add_sub_cancel_left, done]
      · next tail =>
        split
        · next positive => exact memWrite_returns valid toDst (by omega) (by omega) data covers room
        · exact ⟨s, rfl⟩

end Set

/-! ## Runs -/

inductive Op where
  | reset
  | sbrk (incr : Int)
  | setUBCheck (val : Bool)
  | write (addr : Nat) (val : UInt64) (len : Nat)
  | read (addr len : Nat)
  | memcpy (dst src numBytes : Nat)
  | memset (dst : Nat) (c : UInt32) (numBytes : Nat)

/-- The operations, with the answer of a read; `none` where one does not return. -/
def exec (behind : MemSystem → Nat → Mem) (s : MemSystem) : Op → Option (Option UInt64 × MemSystem)
  | .reset => some (none, s.memResetBrk)
  | .sbrk incr => some (none, (s.memSbrk incr).2)
  | .setUBCheck val => some (none, s.setUBCheck val)
  | .write addr val len => (s.memWrite addr val len).map fun s => (none, s)
  | .read addr len => (s.memRead behind addr len).map fun (rdata, s) => (some rdata, s)
  | .memcpy dst src numBytes => (s.memMemcpy behind dst src numBytes).map fun (_, s) => (none, s)
  | .memset dst c numBytes => (s.memMemset dst c numBytes).map fun (_, s) => (none, s)

/-- The accesses that a program may make: of one to eight bytes, and of ranges that are in the heap
or have nothing of it. -/
def Allowed (s : MemSystem) : Op → Prop
  | .reset => True
  | .sbrk incr => incr < 2 ^ 63
  | .setUBCheck _ => True
  | .write addr _ len => (1 ≤ len ∧ len ≤ 8) ∧ s.Placed addr len
  | .read addr len => (1 ≤ len ∧ len ≤ 8) ∧ s.Placed addr len
  | .memcpy dst src numBytes =>
      s.Placed dst numBytes ∧ s.Placed src numBytes ∧ (src + numBytes ≤ dst ∨ dst + numBytes ≤ src)
  | .memset dst _ numBytes => s.Placed dst numBytes

instance (s : MemSystem) : (op : Op) → Decidable (s.Allowed op)
  | .reset => inferInstanceAs (Decidable True)
  | .sbrk incr => inferInstanceAs (Decidable (incr < 2 ^ 63))
  | .setUBCheck _ => inferInstanceAs (Decidable True)
  | .write addr _ len => inferInstanceAs (Decidable ((1 ≤ len ∧ len ≤ 8) ∧ s.Placed addr len))
  | .read addr len => inferInstanceAs (Decidable ((1 ≤ len ∧ len ≤ 8) ∧ s.Placed addr len))
  | .memcpy dst src numBytes => inferInstanceAs (Decidable (s.Placed dst numBytes ∧ s.Placed src numBytes ∧
      (src + numBytes ≤ dst ∨ dst + numBytes ≤ src)))
  | .memset dst _ numBytes => inferInstanceAs (Decidable (s.Placed dst numBytes))

def Step (behind : MemSystem → Nat → Mem) (s : MemSystem) (call : Op × Option UInt64) (s' : MemSystem) : Prop :=
  s.Allowed call.1 ∧ s.exec behind call.1 = some (call.2, s')

/-- There are free pages for what the operation writes, and what it reads was written. -/
def Supplied (s : MemSystem) (A : PartialMem) : Op → Prop
  | .write addr _ len => s.Room (s.pagesOf addr len)
  | .read addr len => A.Known addr len
  | .memcpy dst src numBytes => A.Known src numBytes ∧ s.Room (s.pagesOf dst numBytes)
  | .memset dst _ numBytes => s.Room (s.pagesOf dst numBytes)
  | _ => True

/-- The operations on a flat memory. -/
def FlatStep (A : PartialMem) : Op × Option UInt64 → PartialMem → Prop
  | (.reset, _), A' =>
      A' = fun x => if sparseHeapStart ≤ x ∧ x < sparseHeapStart + maxSparseHeap then none else A x
  | (.sbrk _, _), A' => A' = A
  | (.setUBCheck _, _), A' => A' = A
  | (.write addr val len, _), A' => A' = A.write addr len val.toNat
  | (.read addr len, answer), A' => A' = A ∧ ∃ rdata, answer = some rdata ∧ A.Reads addr len rdata.toNat
  | (.memcpy dst src numBytes, _), A' => A' = A.copy dst src numBytes
  | (.memset dst c numBytes, _), A' => A' = A.fill dst c.toUInt8 numBytes

section Runs

variable (behind : MemSystem → Nat → Mem) {s s' : MemSystem}

theorem memInit_sparseMode (s : MemSystem) (start : Nat) : (s.memInit true start).SparseMode := by
  have positive : 0 < maxDenseHeap * hashLoad / (memBlockSize * hashLoad + 8) / hashLoad := by decide
  rw [memInit, if_pos rfl, setUBCheck]
  split <;> exact ⟨rfl, rfl, rfl, positive⟩

theorem Valid.sparseMode (valid : Valid s) : s.SparseMode := ⟨valid.sparse, valid.heap, valid.top, valid.chained.buckets⟩

/-- After a reset the table is empty. -/
theorem memResetBrk_chain (mode : s.SparseMode) {bucket : Nat} (lt : bucket < s.numBuckets) :
    Chain s.memResetBrk bucket [] := by
  refine ⟨?_, fun p member => nomatch member⟩
  rw [path_nil, memResetBrk, if_pos mode.sparse]
  exact if_pos lt

theorem memResetBrk_valid (mode : s.SparseMode) : Valid s.memResetBrk := by
  have reset : s.memResetBrk = { s with
      pageTable := fun b => if b < s.numBuckets then 0 else s.pageTable b
      nextFreePage := 1, numFreePages := s.numPages, memBrk := s.heap } := if_pos mode.sparse
  have chain : ∀ bucket < s.numBuckets, Chain s.memResetBrk bucket [] := fun _ => memResetBrk_chain mode
  rw [reset] at chain ⊢
  refine ⟨mode.sparse, mode.heap, mode.top, le_rfl, ?_, mode.buckets, Nat.one_pos, ?_, Nat.add_comm ..⟩
  · dsimp only
    rw [mode.top, mode.heap]
    exact Nat.le_add_right ..
  · intro bucket lt
    exact ⟨[], chain bucket lt⟩

/-- A reset keeps the memory that is not of the heap. -/
theorem memResetBrk_contents (mode : s.SparseMode) {x : Nat}
    (out : ¬ (sparseHeapStart ≤ x ∧ x < sparseHeapStart + maxSparseHeap)) :
    s.memResetBrk.contents x = some (s.outside x) := by
  have valid := memResetBrk_valid mode
  have outside : s.memResetBrk.outside = s.outside := by
    rw [memResetBrk, if_pos mode.sparse]
  rw [contents, valid.heap, valid.top, if_neg out, outside]

theorem memSbrk_fields (valid : Valid s) {incr : Int} (small : incr < 2 ^ 63) :
    Valid (s.memSbrk incr).2 ∧ (s.memSbrk incr).2.contents = s.contents := by
  rw [memSbrk]
  split
  · exact ⟨valid, rfl⟩
  · next grows =>
    split
    · exact ⟨valid, rfl⟩
    · next within =>
      have := valid.brk_lt
      have sum : ptrAdd s.memBrk incr.toNat = s.memBrk + incr.toNat := ptrAdd_eq (by omega)
      have table : SameTable s { s with memBrk := ptrAdd s.memBrk incr.toNat } :=
        ⟨rfl, rfl, rfl, rfl, rfl, fun _ => rfl, fun _ => rfl⟩
      obtain ⟨sparse, heap, top, low, high, chained⟩ := valid
      refine ⟨⟨sparse, heap, top, ?_, Nat.le_of_not_lt within, table.chained chained⟩, ?_⟩
      · dsimp only
        rw [sum]
        omega
      · funext x
        rw [contents, contents, table.byteAt_eq rfl rfl]

theorem setUBCheck_fields (valid : Valid s) (val : Bool) :
    Valid (s.setUBCheck val) ∧ (s.setUBCheck val).contents = s.contents := by
  rw [setUBCheck]
  split
  · exact ⟨valid, rfl⟩
  · have table : SameTable s { s with checkUB := val } := ⟨rfl, rfl, rfl, rfl, rfl, fun _ => rfl, fun _ => rfl⟩
    obtain ⟨sparse, heap, top, low, high, chained⟩ := valid
    refine ⟨⟨sparse, heap, top, low, high, table.chained chained⟩, ?_⟩
    funext x
    rw [contents, contents, table.byteAt_eq rfl rfl]

/-- The emulation holds what a flat memory holds. -/
def Emulates (s : MemSystem) (A : PartialMem) : Prop := Valid s ∧ A.Sub s.contents

/-- **One operation** is a step of the flat memory. -/
theorem step_refines {A : PartialMem} {call : Op × Option UInt64} (emulates : Emulates s A)
    (step : Step behind s call s') : ∃ A', FlatStep A call A' ∧ Emulates s' A' := by
  obtain ⟨op, answer⟩ := call
  obtain ⟨allowed, done⟩ := step
  obtain ⟨valid, sub⟩ := emulates
  cases op with
  | reset =>
      obtain ⟨rfl, rfl⟩ := Prod.mk.inj (Option.some.inj done)
      refine ⟨_, rfl, memResetBrk_valid valid.sparseMode, fun x v held => ?_⟩
      dsimp only at held
      split at held
      · cases held
      · next out =>
        have old := sub x v held
        rw [contents, valid.heap, valid.top, if_neg out] at old
        rw [memResetBrk_contents valid.sparseMode out, old]
  | sbrk incr =>
      obtain ⟨rfl, rfl⟩ := Prod.mk.inj (Option.some.inj done)
      obtain ⟨valid', same⟩ := memSbrk_fields valid allowed
      exact ⟨A, rfl, valid', by rwa [same]⟩
  | setUBCheck val =>
      obtain ⟨rfl, rfl⟩ := Prod.mk.inj (Option.some.inj done)
      obtain ⟨valid', same⟩ := setUBCheck_fields valid val
      exact ⟨A, rfl, valid', by rwa [same]⟩
  | write addr val len =>
      obtain ⟨⟨positive, short⟩, placed⟩ := allowed
      obtain ⟨s₁, write, same⟩ := Option.map_eq_some_iff.mp done
      obtain ⟨rfl, rfl⟩ := Prod.mk.inj same
      obtain ⟨kept, written, -⟩ := memWrite_done valid placed positive short write
      exact ⟨_, rfl, kept.valid, sub.write.trans written⟩
  | read addr len =>
      obtain ⟨⟨positive, short⟩, placed⟩ := allowed
      obtain ⟨⟨rdata, s₁⟩, read, same⟩ := Option.map_eq_some_iff.mp done
      obtain ⟨rfl, rfl⟩ := Prod.mk.inj same
      obtain ⟨kept, held, reads, -⟩ := memRead_done behind valid placed positive short read
      exact ⟨A, ⟨rfl, rdata, rfl, sub.reads reads⟩, kept.valid, sub.trans held⟩
  | memcpy dst src numBytes =>
      obtain ⟨toDst, toSrc, apart⟩ := allowed
      obtain ⟨⟨p, s₁⟩, copy, same⟩ := Option.map_eq_some_iff.mp done
      obtain ⟨s₂, loop, same'⟩ := Option.map_eq_some_iff.mp copy
      obtain ⟨rfl, rfl⟩ := Prod.mk.inj same'
      obtain ⟨rfl, rfl⟩ := Prod.mk.inj same
      obtain ⟨kept, copied⟩ := copyLoop_done behind valid toDst toSrc apart loop
      exact ⟨_, rfl, kept.valid, sub.copy.trans copied⟩
  | memset dst c numBytes =>
      obtain ⟨⟨p, s₁⟩, set, same⟩ := Option.map_eq_some_iff.mp done
      obtain ⟨s₂, loop, same'⟩ := Option.map_eq_some_iff.mp set
      obtain ⟨rfl, rfl⟩ := Prod.mk.inj same'
      obtain ⟨rfl, rfl⟩ := Prod.mk.inj same
      obtain ⟨kept, filled⟩ := setLoop_done (spread_byte c) valid allowed loop
      exact ⟨_, rfl, kept.valid, sub.fill.trans filled⟩

/-- **Every operation returns** while there are free pages and it reads what was written. -/
theorem step_returns {A : PartialMem} {op : Op} (emulates : Emulates s A) (allowed : s.Allowed op)
    (supplied : s.Supplied A op) : ∃ answer s', Step behind s (op, answer) s' := by
  obtain ⟨valid, sub⟩ := emulates
  cases op with
  | reset => exact ⟨_, _, allowed, rfl⟩
  | sbrk incr => exact ⟨_, _, allowed, rfl⟩
  | setUBCheck val => exact ⟨_, _, allowed, rfl⟩
  | write addr val len =>
      obtain ⟨s', done⟩ : ∃ s', s.memWrite addr val len = some s' :=
        memWrite_returns valid allowed.2 allowed.1.1 allowed.1.2 val (covers_pagesOf s addr len) supplied
      exact ⟨none, s', allowed, Option.map_eq_some_iff.mpr ⟨s', done, rfl⟩⟩
  | read addr len =>
      obtain ⟨rdata, s', done⟩ :=
        memRead_returns behind valid allowed.2 allowed.1.1 allowed.1.2 (sub.known supplied)
      exact ⟨some rdata, s', allowed, Option.map_eq_some_iff.mpr ⟨_, done, rfl⟩⟩
  | memcpy dst src numBytes =>
      obtain ⟨s', done⟩ := copyLoop_returns behind (Nat.lt_succ_self numBytes) valid allowed.1 allowed.2.1 allowed.2.2
        (sub.known supplied.1) (covers_pagesOf s dst numBytes) supplied.2
      exact ⟨none, s', allowed, Option.map_eq_some_iff.mpr ⟨_, Option.map_eq_some_iff.mpr ⟨s', done, rfl⟩, rfl⟩⟩
  | memset dst c numBytes =>
      obtain ⟨s', done⟩ : ∃ s', setLoop (numBytes + 1) s dst (spread c) numBytes = some s' :=
        setLoop_returns (Nat.lt_succ_self numBytes) valid allowed (covers_pagesOf s dst numBytes) supplied
      exact ⟨none, s', allowed, Option.map_eq_some_iff.mpr ⟨_, Option.map_eq_some_iff.mpr ⟨s', done, rfl⟩, rfl⟩⟩

/-- A write changes its bytes and no other, also of those that no read returns yet. -/
theorem step_stored {addr len : Nat} {val : UInt64} {answer : Option UInt64} (valid : Valid s)
    (step : Step behind s (.write addr val len, answer) s') : (s.stored.write addr len val.toNat).Sub s'.stored := by
  obtain ⟨⟨⟨positive, short⟩, placed⟩, done⟩ := step
  obtain ⟨s₁, write, same⟩ := Option.map_eq_some_iff.mp done
  obtain ⟨rfl, rfl⟩ := Prod.mk.inj same
  obtain ⟨-, -, stored, -⟩ := memWrite_done valid placed positive short write
  exact stored

/-- **The sparse heap is a flat memory.**  Every run from `mem_reset_brk` on is a run of a flat memory
the heap of which holds nothing at first: reads answer the bytes that were written last, and writes,
`mem_memcpy` and `mem_memset` change their bytes and no others.  Of the bytes that were not written a
write changes none either.  While there are free pages every operation returns. -/
theorem emulation_refines {calls : List (Op × Option UInt64)} (mode : s.SparseMode)
    (run : Run (Step behind) s.memResetBrk calls s') :
    ∃ A, Run FlatStep (fun x => if sparseHeapStart ≤ x ∧ x < sparseHeapStart + maxSparseHeap then none
        else some (s.outside x)) calls A ∧ A.Sub s'.contents ∧
      (∀ addr val len answer s'', Step behind s' (.write addr val len, answer) s'' →
        (s'.stored.write addr len val.toNat).Sub s''.stored) ∧
      ∀ op, s'.Allowed op → s'.Supplied A op → ∃ answer s'', Step behind s' (op, answer) s'' := by
  have start : Emulates s.memResetBrk fun x =>
      if sparseHeapStart ≤ x ∧ x < sparseHeapStart + maxSparseHeap then none else some (s.outside x) := by
    refine ⟨memResetBrk_valid mode, fun x v held => ?_⟩
    dsimp only at held
    split at held
    · cases held
    · next out => rw [memResetBrk_contents mode out, held]
  obtain ⟨A, flat, emulates⟩ := run.follows Emulates start fun s A call s' emulates step =>
    step_refines behind emulates step
  exact ⟨A, flat, emulates.2, fun _ _ _ _ _ => step_stored behind emulates.1, fun op => step_returns behind emulates⟩

/-- The memory system before `mem_init`. -/
def zeroed : MemSystem where
  noCheckUB := false
  sparse := false
  heap := 0
  memBrk := 0
  memMaxAddr := 0
  checkUB := true
  nextFreePage := 0
  numPages := 0
  numFreePages := 0
  pageTable := fun _ => 0
  numBuckets := 0
  pages := fun _ => ⟨0, 0, fun _ => 0, fun _ => 0⟩
  outside := fun _ => 0

/-- Accesses that straddle pages, and two pages of one bucket. -/
def someAccesses : List (Op × Option UInt64) :=
  [(.sbrk 16777216, none), (.write (sparseHeapStart + 1020) 0x1122334455667788 8, none),
    (.write (sparseHeapStart + 8971 * 1024 + 4) 0xAB 1, none),
    (.read (sparseHeapStart + 1020) 8, some 0x1122334455667788), (.memset (sparseHeapStart + 2000) 0xEE 60, none),
    (.memcpy (sparseHeapStart + 4090) (sparseHeapStart + 2001) 11, none),
    (.read (sparseHeapStart + 4092) 8, some 0xEEEEEEEEEEEEEEEE), (.read (sparseHeapStart + 8971 * 1024 + 4) 1, some 0xAB)]

theorem emulation_refines_some :
    ∃ s', Run (Step fun _ _ _ => 0) (zeroed.memInit true 0).memResetBrk someAccesses s' ∧
      ∃ A, Run FlatStep (fun x => if sparseHeapStart ≤ x ∧ x < sparseHeapStart + maxSparseHeap then none
          else some ((zeroed.memInit true 0).outside x)) someAccesses A ∧ A.Sub s'.contents ∧
        (∀ addr val len answer s'', Step (fun _ _ _ => 0) s' (.write addr val len, answer) s'' →
          (s'.stored.write addr len val.toNat).Sub s''.stored) ∧
        ∀ op, s'.Allowed op → s'.Supplied A op → ∃ answer s'', Step (fun _ _ _ => 0) s' (op, answer) s'' := by
  have computed : (someAccesses.foldlM (fun (s : MemSystem) (call : Op × Option UInt64) => if s.Allowed call.1 then
      (s.exec (fun _ _ _ => 0) call.1).bind fun (answer, s') => if answer = call.2 then some s' else none
    else none) (zeroed.memInit true 0).memResetBrk).isSome = true := by decide +kernel
  obtain ⟨s', computed⟩ := Option.isSome_iff_exists.mp computed
  have run : Run (Step fun _ _ _ => 0) (zeroed.memInit true 0).memResetBrk someAccesses s' := by
    apply (Run.of_guarded computed).mono
    rintro s call s' ⟨allowed, done⟩
    obtain ⟨⟨answer, s₁⟩, exec, same⟩ := Option.bind_eq_some_iff.mp done
    dsimp only at same
    by_cases equal : answer = call.2
    · rw [if_pos equal] at same
      exact ⟨allowed, by rw [exec, ← Option.some.inj same, ← equal]⟩
    · rw [if_neg equal] at same
      cases same
  exact ⟨s', run, emulation_refines _ (memInit_sparseMode zeroed 0) run⟩

end Runs

end MemSystem

end SystemsLabs.Driver
