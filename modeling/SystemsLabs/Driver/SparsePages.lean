/-
# SystemsLabs.Driver.SparsePages -- the page table of the emulation

`blockOf` is the block that the search of the page table finds for a page.  `Chained` is the
invariant of the table: the chain of each bucket ends, and its blocks were allocated.

A byte is `Marked` when a read of it succeeds: its page has a block, and its bit is set there in
the builds that check it.  `getMem_write` and `getMem_read` are the two uses of `get_mem`.  No
marked byte is lost; a write fails only where there is no free page.
-/
import Mathlib.Data.Finset.Card
import Mathlib.Data.List.Find
import Mathlib.Data.Nat.Bitwise
import SystemsLabs.Driver.SparseHeap
import SystemsLabs.Theory.PointerPath

namespace SystemsLabs.Driver

set_option autoImplicit false

open Theory.ByteMemory Theory.PointerPath

namespace MemSystem

/-! ## Addresses -/

/-- The page of an address of the heap. -/
def idOf (x : Nat) : Nat := (x - sparseHeapStart) / sparsePageSize

/-- Its offset in the page. -/
def offsetOf (x : Nat) : Nat := (x - sparseHeapStart) % sparsePageSize

section Addresses

variable {x a b n : Nat}

theorem ptrAdd_eq (fits : a + n < 2 ^ 64) : ptrAdd a n = a + n := Nat.mod_eq_of_lt fits

theorem ptrSub_eq (le : b ≤ a) (fits : a < 2 ^ 64) : ptrSub a b = a - b := by
  rw [ptrSub, Nat.mod_eq_of_lt (Nat.lt_of_le_of_lt le fits)]
  omega

theorem offsetOf_lt (x : Nat) : offsetOf x < sparsePageSize := Nat.mod_lt _ (by decide)

theorem place_eq (low : sparseHeapStart ≤ x) : x = sparseHeapStart + idOf x * sparsePageSize + offsetOf x := by
  have := Nat.div_add_mod' (x - sparseHeapStart) sparsePageSize
  rw [idOf, offsetOf, Nat.add_assoc, this, Nat.add_sub_cancel' low]

theorem place_unique {i o : Nat} (small : o < sparsePageSize) :
    idOf (sparseHeapStart + i * sparsePageSize + o) = i ∧ offsetOf (sparseHeapStart + i * sparsePageSize + o) = o := by
  rw [idOf, offsetOf, Nat.add_assoc, Nat.add_sub_cancel_left, Nat.add_comm]
  exact ⟨by rw [Nat.add_mul_div_right _ _ (by decide), Nat.div_eq_of_lt small, Nat.zero_add],
    by rw [Nat.add_mul_mod_self_right, Nat.mod_eq_of_lt small]⟩

theorem pageId_eq (low : sparseHeapStart ≤ x) (fits : x < 2 ^ 64) : pageId x = idOf x := by
  rw [pageId, ptrSub_eq low fits, idOf]

theorem offset_eq (low : sparseHeapStart ≤ x) (fits : x < 2 ^ 64) :
    ptrSub x (pageStart (pageId x)) = offsetOf x := by
  have place := place_eq low
  rw [pageId_eq low fits, pageStart, ptrAdd_eq (by omega), ptrSub_eq (by omega) fits]
  omega

/-- The bytes from an address on are in its page up to its end. -/
theorem of_add_lt (low : sparseHeapStart ≤ x) (within : offsetOf x + n < sparsePageSize) :
    idOf (x + n) = idOf x ∧ offsetOf (x + n) = offsetOf x + n := by
  have whole : x + n = sparseHeapStart + idOf x * sparsePageSize + (offsetOf x + n) := by
    have := place_eq low
    omega
  have unique := place_unique (i := idOf x) within
  rwa [← whole] at unique

/-- The first byte of the next page. -/
theorem of_add_rest (low : sparseHeapStart ≤ x) :
    idOf (x + (sparsePageSize - offsetOf x)) = idOf x + 1 ∧
      offsetOf (x + (sparsePageSize - offsetOf x)) = 0 := by
  have whole : x + (sparsePageSize - offsetOf x) = sparseHeapStart + (idOf x + 1) * sparsePageSize + 0 := by
    have := place_eq low
    have := offsetOf_lt x
    rw [Nat.add_mul]
    omega
  have unique := place_unique (i := idOf x + 1) (o := 0) (by decide)
  rwa [← whole] at unique

/-- The addresses of a range in one page are the offsets of a range. -/
theorem range_iff (low : sparseHeapStart ≤ a) (low' : sparseHeapStart ≤ x) (same : idOf x = idOf a) :
    (a ≤ x ∧ x < a + n) ↔ offsetOf a ≤ offsetOf x ∧ offsetOf x < offsetOf a + n := by
  have place := place_eq low
  have place' := place_eq low'
  rw [same] at place'
  omega

/-- A range that fits a page is in it. -/
theorem idOf_of_range (low : sparseHeapStart ≤ a) (within : offsetOf a + n ≤ sparsePageSize)
    (lo : a ≤ x) (hi : x < a + n) : idOf x = idOf a := by
  obtain ⟨i, rfl⟩ := Nat.exists_eq_add_of_le lo
  exact (of_add_lt low (by omega)).1

/-- Past the end of its page a range is in later pages. -/
theorem idOf_ne_of_rest (low : sparseHeapStart ≤ a) (past : a + (sparsePageSize - offsetOf a) ≤ x) :
    idOf x ≠ idOf a := by
  intro same
  have place := place_eq low
  have place' := place_eq (x := x) (by omega)
  have := offsetOf_lt x
  have := offsetOf_lt a
  rw [same] at place'
  omega

end Addresses

/-! ## The bits of written bytes -/

/-- The bit of an offset is set. -/
def InitAt (initSet : Nat → UInt8) (o : Nat) : Prop := (initSet (o / 8)).toNat.testBit (o % 8) = true

section Touch

variable (initSet : Nat → UInt8) (checkUB : Bool) (size : Nat) {o : Nat}

theorem bit_toNat : ∀ i < 8, ((1 : UInt8) <<< UInt8.ofNat i).toNat = 2 ^ i := by decide

theorem and_bit_eq_zero {w : UInt8} {i : Nat} (small : i < 8) :
    w &&& 1 <<< UInt8.ofNat i = 0 ↔ w.toNat.testBit i = false := by
  rw [← UInt8.toNat_inj, UInt8.toNat_and, bit_toNat i small, Nat.and_comm, Nat.two_pow_and]
  have : 2 ^ i ≠ 0 := (Nat.two_pow_pos i).ne'
  cases w.toNat.testBit i <;> simp

theorem initAt_mark {o' : Nat} :
    InitAt (Function.update initSet (o / 8) (initSet (o / 8) ||| 1 <<< UInt8.ofNat (o % 8))) o' ↔
      InitAt initSet o' ∨ o' = o := by
  by_cases index : o' / 8 = o / 8
  · rw [InitAt, InitAt, index, Function.update_self, UInt8.toNat_or, bit_toNat _ (by omega), Nat.testBit_or,
      Nat.testBit_two_pow, Bool.or_eq_true, decide_eq_true_eq]
    exact or_congr_right (by omega)
  · rw [InitAt, InitAt, Function.update_of_ne index]
    exact ⟨Or.inl, fun either => either.resolve_right (by omega)⟩

/-- One byte further in the set. -/
theorem step_eq (o : Nat) :
    (if o % 8 + 1 = 8 then (o / 8 + 1, 0) else (o / 8, o % 8 + 1)) = ((o + 1) / 8, (o + 1) % 8) := by
  split <;> exact Prod.ext (by simp; omega) (by simp; omega)

theorem end_iff : (o + 1) / 8 = sparsePageSize / 8 ↔ sparsePageSize ≤ o + 1 ∧ o + 1 < sparsePageSize + 8 := by
  rw [show sparsePageSize = 1024 from rfl]
  omega

/-- A write marks its bytes up to the end of the page. -/
theorem touch_write (small : o < sparsePageSize) :
    ∃ marked, touch true checkUB size (o / 8) (o % 8) initSet = some marked ∧
      ∀ o', InitAt marked o' ↔ InitAt initSet o' ∨ (o ≤ o' ∧ o' < o + size ∧ o' < sparsePageSize) := by
  induction size generalizing o initSet with
  | zero =>
      refine ⟨initSet, rfl, fun o' => ?_⟩
      exact ⟨Or.inl, fun either => either.resolve_right (by omega)⟩
  | succ size ih =>
      simp only [touch, step_eq, not_true_eq_false, false_and, if_false, if_true]
      split
      · next last =>
        refine ⟨_, rfl, fun o' => (initAt_mark initSet).trans (or_congr_right ?_)⟩
        have := end_iff.mp last
        omega
      · next more =>
        have within : o + 1 < sparsePageSize := by
          by_contra past
          exact more (end_iff.mpr (by omega))
        obtain ⟨marked, done, marks⟩ := ih _ within
        refine ⟨marked, done, fun o' => ?_⟩
        rw [marks, initAt_mark initSet, or_assoc]
        exact or_congr_right (by omega)

/-- A read changes no bit. -/
theorem touch_read {initSet initSet' : Nat → UInt8} {checkUB : Bool} {size i j : Nat}
    (done : touch false checkUB size i j initSet = some initSet') : initSet' = initSet := by
  induction size generalizing i j with
  | zero => exact (Option.some.inj done).symm
  | succ size ih =>
      simp only [touch, Bool.false_eq_true, if_false] at done
      generalize (if j + 1 = 8 then (i + 1, 0) else (i, j + 1)) = next at done
      split at done
      · cases done
      · split at done
        · exact (Option.some.inj done).symm
        · exact ih done

/-- A read of marked bytes succeeds. -/
theorem touch_marked {initSet : Nat → UInt8} {size : Nat} (small : o < sparsePageSize)
    (marked : ∀ o', o ≤ o' → o' < o + size → o' < sparsePageSize → InitAt initSet o') :
    touch false checkUB size (o / 8) (o % 8) initSet = some initSet := by
  induction size generalizing o with
  | zero => rfl
  | succ size ih =>
      have first : ¬ initSet (o / 8) &&& 1 <<< UInt8.ofNat (o % 8) = 0 := by
        rw [and_bit_eq_zero (by omega), Bool.not_eq_false]
        exact marked o le_rfl (by omega) small
      simp only [touch, step_eq, first, and_false, if_false, Bool.false_eq_true]
      split
      · rfl
      · next more =>
        have within : o + 1 < sparsePageSize := by
          by_contra past
          exact more (end_iff.mpr (by omega))
        exact ih within fun o' lo hi => marked o' (by omega) (by omega)

end Touch

/-! ## The page table -/

/-- The block that the search finds for a page; 0 where there is none. -/
def blockOf (s : MemSystem) (id : Nat) : Nat :=
  (s.findBlock id (s.numPages + 1) (s.pageTable (id % s.numBuckets))).getD 0

/-- The chain of a bucket. -/
structure Chain (s : MemSystem) (bucket : Nat) (l : List Nat) : Prop where
  path : Path (fun p => (s.pages p).next) (s.pageTable bucket) l 0
  taken : ∀ p ∈ l, 0 < p ∧ p < s.nextFreePage

structure Chained (s : MemSystem) : Prop where
  buckets : 0 < s.numBuckets
  first : 0 < s.nextFreePage
  chains : ∀ bucket < s.numBuckets, ∃ l, Chain s bucket l
  count : s.nextFreePage + s.numFreePages = s.numPages + 1

section Table

variable {s s' : MemSystem} {id : Nat}

theorem Chain.off {bucket : Nat} {l : List Nat} (chain : Chain s bucket l) : 0 ∉ l :=
  fun member => absurd (chain.taken 0 member).1 (Nat.lt_irrefl 0)

/-- A chain repeats no block, so it is no longer than the pages that were allocated. -/
theorem Chain.length_le {bucket : Nat} {l : List Nat} (chain : Chain s bucket l) (chained : Chained s) :
    l.length ≤ s.numPages := by
  have nodup : l.Nodup := chain.path.nodup chain.off
  have within : l ⊆ List.range' 1 (s.nextFreePage - 1) := by
    intro p member
    have := chain.taken p member
    rw [List.mem_range'_1]
    omega
  have shorter := (nodup.subperm within).length_le
  rw [List.length_range'] at shorter
  have := chained.count
  omega

theorem findBlock_path (id : Nat) {a fuel : Nat} {l : List Nat} (path : Path (fun p => (s.pages p).next) a l 0)
    (off : 0 ∉ l) (enough : l.length < fuel) :
    s.findBlock id fuel a = some ((l.find? fun p => (s.pages p).id = id).getD 0) := by
  induction l generalizing a fuel with
  | nil =>
      obtain ⟨fuel, rfl⟩ := Nat.exists_eq_add_one.mpr enough
      rw [path_nil.mp path, findBlock, if_pos rfl]
      rfl
  | cons p l ih =>
      obtain ⟨fuel, rfl⟩ := Nat.exists_eq_add_one.mpr (Nat.zero_lt_of_lt enough)
      obtain ⟨rfl, rest⟩ := path
      rw [List.mem_cons, not_or] at off
      rw [findBlock, if_neg (Ne.symm off.1)]
      split
      · next here => rw [List.find?_cons_of_pos (by simpa using here), Option.getD_some]
      · next other =>
        rw [List.find?_cons_of_neg (by simpa using other)]
        exact ih rest off.2 (Nat.lt_of_succ_lt_succ enough)

theorem Chain.blockOf_eq {l : List Nat} (chain : Chain s (id % s.numBuckets) l) (chained : Chained s) :
    s.blockOf id = (l.find? fun p => (s.pages p).id = id).getD 0 := by
  have found := findBlock_path id chain.path chain.off (Nat.lt_succ_of_le (chain.length_le chained))
  rw [blockOf, found, Option.getD_some]

theorem Chained.chain (chained : Chained s) (id : Nat) : ∃ l, Chain s (id % s.numBuckets) l :=
  chained.chains _ (Nat.mod_lt _ chained.buckets)

/-- The search ends. -/
theorem Chained.findBlock_eq (chained : Chained s) (id : Nat) :
    s.findBlock id (s.numPages + 1) (s.pageTable (id % s.numBuckets)) = some (s.blockOf id) := by
  obtain ⟨l, chain⟩ := chained.chain id
  rw [chain.blockOf_eq chained]
  exact findBlock_path id chain.path chain.off (Nat.lt_succ_of_le (chain.length_le chained))

/-- The block of a page is one of those allocated, and it has the number of the page. -/
theorem Chained.blockOf_spec (chained : Chained s) (mapped : s.blockOf id ≠ 0) :
    s.blockOf id < s.nextFreePage ∧ (s.pages (s.blockOf id)).id = id := by
  obtain ⟨l, chain⟩ := chained.chain id
  rw [chain.blockOf_eq chained] at mapped ⊢
  cases found : l.find? fun p => (s.pages p).id = id with
  | none => simp [found] at mapped
  | some p =>
      have named : (s.pages p).id = id := by simpa using List.find?_some found
      exact ⟨(chain.taken p (List.mem_of_find?_eq_some found)).2, named⟩

/-- Pages do not share a block. -/
theorem Chained.blockOf_ne {j : Nat} (chained : Chained s) (mapped : s.blockOf id ≠ 0) (other : j ≠ id) :
    s.blockOf j ≠ s.blockOf id := by
  intro same
  have own := (chained.blockOf_spec mapped).2
  rw [← same] at own mapped
  exact other ((chained.blockOf_spec mapped).2.symm.trans own)

/-- The table of both states is the same. -/
structure SameTable (s s' : MemSystem) : Prop where
  numPages : s'.numPages = s.numPages
  numBuckets : s'.numBuckets = s.numBuckets
  pageTable : s'.pageTable = s.pageTable
  nextFreePage : s'.nextFreePage = s.nextFreePage
  numFreePages : s'.numFreePages = s.numFreePages
  id : ∀ p, (s'.pages p).id = (s.pages p).id
  next : ∀ p, (s'.pages p).next = (s.pages p).next

theorem SameTable.findBlock_eq (same : SameTable s s') (fuel block : Nat) :
    s'.findBlock id fuel block = s.findBlock id fuel block := by
  induction fuel generalizing block with
  | zero => rfl
  | succ fuel ih => rw [findBlock, findBlock, same.id, same.next, ih]

theorem SameTable.blockOf_eq (same : SameTable s s') : s'.blockOf = s.blockOf := by
  funext id
  rw [blockOf, blockOf, same.findBlock_eq, same.numPages, same.numBuckets, same.pageTable]

theorem SameTable.chained (same : SameTable s s') (chained : Chained s) : Chained s' := by
  refine ⟨?_, ?_, ?_, ?_⟩
  · rw [same.numBuckets]
    exact chained.buckets
  · rw [same.nextFreePage]
    exact chained.first
  · intro bucket lt
    obtain ⟨l, path, taken⟩ := chained.chains bucket (by rwa [same.numBuckets] at lt)
    refine ⟨l, ?_, ?_⟩
    · rw [same.pageTable]
      exact path.congr fun p _ => same.next p
    · rw [same.nextFreePage]
      exact taken
  · rw [same.nextFreePage, same.numFreePages, same.numPages]
    exact chained.count

@[simp] theorem setBlock_self (s : MemSystem) (p : Nat) (contents : MemBlock) :
    (s.setBlock p contents).pages p = contents := Function.update_self ..

theorem setBlock_other {p q : Nat} {contents : MemBlock} (other : q ≠ p) :
    (s.setBlock p contents).pages q = s.pages q := Function.update_of_ne other ..

theorem setBlock_sameTable {p : Nat} {contents : MemBlock} (sameId : contents.id = (s.pages p).id)
    (sameNext : contents.next = (s.pages p).next) : SameTable s (s.setBlock p contents) := by
  refine ⟨rfl, rfl, rfl, rfl, rfl, fun q => ?_, fun q => ?_⟩
  · by_cases same : q = p
    · rw [same, setBlock_self, sameId]
    · rw [setBlock_other same]
  · by_cases same : q = p
    · rw [same, setBlock_self, sameNext]
    · rw [setBlock_other same]

theorem setBits_sameTable (s : MemSystem) (p : Nat) (bits : Nat → UInt8) :
    SameTable s (s.setBlock p { s.pages p with initSet := bits }) := setBlock_sameTable rfl rfl

end Table

/-! ## Written bytes -/

/-- The page of the byte has a block, where the byte counts as written. -/
def Marked (s : MemSystem) (x : Nat) : Prop :=
  s.blockOf (idOf x) ≠ 0 ∧ (s.noCheckUB = true ∨ InitAt (s.pages (s.blockOf (idOf x))).initSet (offsetOf x))

/-- The byte that the block of its page holds. -/
def rawByte (s : MemSystem) (x : Nat) : UInt8 := (s.pages (s.blockOf (idOf x))).bytes (offsetOf x)

/-- What the accesses leave alone. -/
structure SameHeap (s s' : MemSystem) : Prop where
  noCheckUB : s'.noCheckUB = s.noCheckUB
  sparse : s'.sparse = s.sparse
  heap : s'.heap = s.heap
  memBrk : s'.memBrk = s.memBrk
  memMaxAddr : s'.memMaxAddr = s.memMaxAddr
  checkUB : s'.checkUB = s.checkUB

/-- A page has a block, and the bytes of `written` are marked; no mark is lost, and the bytes of the
blocks stay. -/
structure Mapped (s s' : MemSystem) (id : Nat) (written : Nat → Prop) : Prop where
  chained : Chained s'
  same : SameHeap s s'
  outside : s'.outside = s.outside
  block : s'.blockOf id ≠ 0
  blocks : ∀ j, j ≠ id ∨ s.blockOf j ≠ 0 → s'.blockOf j = s.blockOf j
  free : s.numFreePages = s'.numFreePages + if s.blockOf id = 0 then 1 else 0
  marks : ∀ x, sparseHeapStart ≤ x → s.Marked x ∨ written x → s'.Marked x
  kept : ∀ x, s.blockOf (idOf x) ≠ 0 → s'.rawByte x = s.rawByte x

/-! ## Allocation -/

/-- What the allocation of a block for a page does. -/
structure Allocated (s s' : MemSystem) (id : Nat) : Prop where
  same : SameHeap s s'
  outside : s'.outside = s.outside
  numPages : s'.numPages = s.numPages
  numBuckets : s'.numBuckets = s.numBuckets
  nextFreePage : s'.nextFreePage = s.nextFreePage + 1
  numFreePages : s.numFreePages = s'.numFreePages + 1
  pageTable : s'.pageTable = Function.update s.pageTable (id % s.numBuckets) s.nextFreePage
  others : ∀ p, p ≠ s.nextFreePage → s'.pages p = s.pages p
  named : (s'.pages s.nextFreePage).id = id
  link : (s'.pages s.nextFreePage).next = s.pageTable (id % s.numBuckets)

section Allocation

variable {s s' : MemSystem} {id : Nat}

theorem allocBlock_spec (id : Nat) (free : s.numFreePages ≠ 0) :
    ∃ s', s.allocBlock id (id % s.numBuckets) = some (s.nextFreePage, s') ∧ Allocated s s' id := by
  rw [allocBlock, if_neg free]
  refine ⟨_, rfl, ⟨rfl, rfl, rfl, rfl, rfl, rfl⟩, rfl, rfl, rfl, rfl, ?_, rfl, ?_, ?_, ?_⟩
  · exact (Nat.sub_add_cancel (Nat.pos_of_ne_zero free)).symm
  · intro p other
    exact setBlock_other other
  · simp
  · simp

variable (chained : Chained s) (alloc : Allocated s s' id)

include chained alloc

theorem Allocated.chain {bucket : Nat} {l : List Nat} (chain : Chain s bucket l) :
    Chain s' bucket (if bucket = id % s.numBuckets then s.nextFreePage :: l else l) := by
  have old : ∀ p ∈ l, s'.pages p = s.pages p :=
    fun p member => alloc.others p (Nat.ne_of_lt (chain.taken p member).2)
  have kept : ∀ p ∈ l, 0 < p ∧ p < s'.nextFreePage := fun p member => by
    have := chain.taken p member
    rw [alloc.nextFreePage]
    omega
  split
  · next own =>
    subst own
    refine ⟨?_, fun p member => ?_⟩
    · rw [alloc.pageTable, Function.update_self]
      exact chain.path.push alloc.link fun p member => by rw [old p member]
    · rcases List.mem_cons.mp member with rfl | member
      · rw [alloc.nextFreePage]
        exact ⟨chained.first, Nat.lt_succ_self _⟩
      · exact kept p member
  · next other =>
    refine ⟨?_, kept⟩
    rw [alloc.pageTable, Function.update_of_ne other]
    exact chain.path.congr fun p member => by rw [old p member]

theorem Allocated.keeps : Chained s' := by
  refine ⟨?_, ?_, ?_, ?_⟩
  · rw [alloc.numBuckets]
    exact chained.buckets
  · rw [alloc.nextFreePage]
    exact Nat.succ_pos _
  · intro bucket lt
    obtain ⟨l, chain⟩ := chained.chains bucket (by rwa [alloc.numBuckets] at lt)
    exact ⟨_, alloc.chain chained chain⟩
  · have := chained.count
    have := alloc.numFreePages
    rw [alloc.nextFreePage, alloc.numPages]
    omega

theorem Allocated.blockOf_self : s'.blockOf id = s.nextFreePage := by
  obtain ⟨l, chain⟩ := chained.chain id
  have chain' := alloc.chain chained chain
  rw [if_pos rfl, ← alloc.numBuckets] at chain'
  rw [chain'.blockOf_eq (alloc.keeps chained), List.find?_cons_of_pos (by simpa using alloc.named), Option.getD_some]

theorem Allocated.blockOf_other {j : Nat} (other : j ≠ id) : s'.blockOf j = s.blockOf j := by
  obtain ⟨l, chain⟩ := chained.chain j
  have chain' := alloc.chain chained chain
  rw [← alloc.numBuckets] at chain'
  have search : (l.find? fun p => (s'.pages p).id = j) = l.find? fun p => (s.pages p).id = j :=
    List.find?_congr fun p member => by rw [alloc.others p (Nat.ne_of_lt (chain.taken p member).2)]
  rw [chain'.blockOf_eq (alloc.keeps chained), chain.blockOf_eq chained]
  split
  · rw [List.find?_cons_of_neg (by rw [alloc.named]; simpa using other.symm), search]
  · rw [search]

/-- The new block holds no byte, and the others keep theirs. -/
theorem Allocated.mapped (absent : s.blockOf id = 0) : Mapped s s' id fun _ => False := by
  have page : ∀ x, idOf x ≠ id → s.blockOf (idOf x) ≠ 0 →
      s'.pages (s'.blockOf (idOf x)) = s.pages (s.blockOf (idOf x)) := by
    intro x other mapped
    rw [alloc.blockOf_other chained other, alloc.others _ (Nat.ne_of_lt (chained.blockOf_spec mapped).1)]
  have others : ∀ x, s.blockOf (idOf x) ≠ 0 → idOf x ≠ id := by
    rintro x mapped rfl
    exact mapped absent
  refine ⟨alloc.keeps chained, alloc.same, alloc.outside, ?_, ?_, ?_, ?_, ?_⟩
  · rw [alloc.blockOf_self chained]
    exact chained.first.ne'
  · intro j either
    apply alloc.blockOf_other chained
    rintro rfl
    exact either.elim (fun other => other rfl) (fun mapped => mapped absent)
  · rw [if_pos absent]
    exact alloc.numFreePages
  · intro x _ either
    have marked := either.resolve_right fun impossible => impossible
    have other := others x marked.1
    rw [Marked, page x other marked.1, alloc.blockOf_other chained other, alloc.same.noCheckUB]
    exact marked
  · intro x mapped
    rw [rawByte, rawByte, page x (others x mapped) mapped]

end Allocation

/-! ## `get_mem` -/

section GetMem

variable {s s' s'' : MemSystem} {id a size : Nat} {isWrite : Bool}

theorem SameHeap.refl (s : MemSystem) : SameHeap s s := ⟨rfl, rfl, rfl, rfl, rfl, rfl⟩

theorem SameHeap.trans (first : SameHeap s s') (second : SameHeap s' s'') : SameHeap s s'' :=
  ⟨second.noCheckUB.trans first.noCheckUB, second.sparse.trans first.sparse, second.heap.trans first.heap, second.memBrk.trans first.memBrk,
    second.memMaxAddr.trans first.memMaxAddr, second.checkUB.trans first.checkUB⟩

/-- The block of a page, which gets one where it has none. -/
def locate (s : MemSystem) (id : Nat) : Option (Nat × MemSystem) :=
  if s.blockOf id = 0 then s.allocBlock id (id % s.numBuckets) else some (s.blockOf id, s)

theorem locate_spec (chained : Chained s) (id : Nat) :
    (s.locate id = none ∧ s.blockOf id = 0 ∧ s.numFreePages = 0) ∨
      ∃ s', s.locate id = some (s'.blockOf id, s') ∧ Mapped s s' id fun _ => False := by
  rw [locate]
  by_cases absent : s.blockOf id = 0
  · rw [if_pos absent]
    by_cases full : s.numFreePages = 0
    · exact Or.inl ⟨by rw [allocBlock, if_pos full], absent, full⟩
    · obtain ⟨s', done, alloc⟩ := allocBlock_spec id full
      refine Or.inr ⟨s', ?_, alloc.mapped chained absent⟩
      rw [done, alloc.blockOf_self chained]
  · rw [if_neg absent]
    refine Or.inr ⟨s, rfl, chained, .refl s, rfl, absent, fun _ _ => rfl, ?_, ?_, fun _ _ => rfl⟩
    · rw [if_neg absent, Nat.add_zero]
    · intro x _ either
      exact either.resolve_right fun impossible => impossible

/-- The bits of a page after an access. -/
def touched (s : MemSystem) (block a size : Nat) (isWrite : Bool) : Option (Nat → UInt8) :=
  if s.noCheckUB then some (s.pages block).initSet
  else touch isWrite s.checkUB size (offsetOf a / 8) (offsetOf a % 8) (s.pages block).initSet

theorem getMem_eq (chained : Chained s) (low : sparseHeapStart ≤ a) (fits : a < 2 ^ 64) :
    s.getMem a size isWrite = (s.locate (idOf a)).bind fun (block, s) =>
      (s.touched block a size isWrite).bind fun initSet =>
        some ((block, offsetOf a), s.setBlock block { s.pages block with initSet := initSet }) := by
  have page := pageId_eq low fits
  rw [getMem, offset_eq low fits, page, chained.findBlock_eq]
  rfl

/-- The block of a page gets another set of bits. -/
theorem Mapped.setBits {bits : Nat → UInt8} {written : Nat → Prop}
    (located : Mapped s s' id fun _ => False)
    (marks : ∀ x, sparseHeapStart ≤ x → s'.noCheckUB = false →
      (idOf x = id ∧ InitAt (s'.pages (s'.blockOf id)).initSet (offsetOf x)) ∨ written x → InitAt bits (offsetOf x))
    (own : ∀ x, written x → idOf x = id) :
    Mapped s (s'.setBlock (s'.blockOf id) { s'.pages (s'.blockOf id) with initSet := bits }) id written := by
  have same := setBits_sameTable s' (s'.blockOf id) bits
  refine ⟨same.chained located.chained, located.same.trans ⟨rfl, rfl, rfl, rfl, rfl, rfl⟩, located.outside,
    ?_, ?_, located.free, ?_, ?_⟩
  · rw [same.blockOf_eq]
    exact located.block
  · rw [same.blockOf_eq]
    exact located.blocks
  · intro x low mark
    rw [Marked, same.blockOf_eq]
    by_cases page : idOf x = id
    · rw [page, setBlock_self]
      refine ⟨located.block, ?_⟩
      by_cases checked : s'.noCheckUB = false
      · refine Or.inr (marks x low checked (mark.imp_left fun marked => ⟨page, ?_⟩))
        have old := (located.marks x low (Or.inl marked)).2
        rw [page, checked] at old
        exact old.resolve_left Bool.false_ne_true
      · exact Or.inl (Bool.eq_true_of_not_eq_false checked)
    · have old := located.marks x low (Or.inl (mark.resolve_right fun written => page (own x written)))
      rw [setBlock_other (located.chained.blockOf_ne located.block page)]
      exact old
  · intro x mapped
    rw [← located.kept x mapped, rawByte, rawByte, same.blockOf_eq]
    by_cases page : idOf x = id
    · rw [page, setBlock_self]
    · rw [setBlock_other (located.chained.blockOf_ne located.block page)]

/-- **A write access.**  It marks its bytes, up to the end of their page, and fails only where the page
needs a block and there is none. -/
theorem getMem_write (chained : Chained s) (low : sparseHeapStart ≤ a) (fits : a < 2 ^ 64) :
    (s.getMem a size true = none ∧ s.blockOf (idOf a) = 0 ∧ s.numFreePages = 0) ∨
      ∃ s', s.getMem a size true = some ((s'.blockOf (idOf a), offsetOf a), s') ∧
        Mapped s s' (idOf a) fun x => (a ≤ x ∧ x < a + size) ∧ idOf x = idOf a := by
  rw [getMem_eq chained low fits]
  rcases locate_spec chained (idOf a) with ⟨failed, absent, full⟩ | ⟨s', found, located⟩
  · rw [failed]
    exact Or.inl ⟨rfl, absent, full⟩
  · obtain ⟨bits, done, marks⟩ : ∃ bits, s'.touched (s'.blockOf (idOf a)) a size true = some bits ∧
        (s'.noCheckUB = false → ∀ o, InitAt bits o ↔ InitAt (s'.pages (s'.blockOf (idOf a))).initSet o ∨
          (offsetOf a ≤ o ∧ o < offsetOf a + size ∧ o < sparsePageSize)) := by
      rw [touched]
      split
      · next unchecked => exact ⟨_, rfl, fun checked => absurd (unchecked.symm.trans checked) Bool.noConfusion⟩
      · obtain ⟨bits, done, marks⟩ :=
          touch_write (s'.pages (s'.blockOf (idOf a))).initSet s'.checkUB size (offsetOf_lt a)
        exact ⟨bits, done, fun _ => marks⟩
    refine Or.inr ⟨s'.setBlock (s'.blockOf (idOf a)) { s'.pages (s'.blockOf (idOf a)) with initSet := bits }, ?_, ?_⟩
    · simp only [found, Option.bind_some, done]
      rw [(setBits_sameTable ..).blockOf_eq]
    · refine located.setBits (fun x low' checked mark => ?_) fun x mark => mark.2
      rw [marks checked]
      refine mark.imp And.right fun inside => ?_
      have within := (range_iff low low' inside.2).mp inside.1
      exact ⟨within.1, within.2, offsetOf_lt x⟩

/-- **A read access.**  It marks no byte. -/
theorem getMem_read {place : Nat × Nat} (chained : Chained s) (low : sparseHeapStart ≤ a) (fits : a < 2 ^ 64)
    (done : s.getMem a size false = some (place, s')) :
    place = (s'.blockOf (idOf a), offsetOf a) ∧ Mapped s s' (idOf a) fun _ => False := by
  rw [getMem_eq chained low fits] at done
  rcases locate_spec chained (idOf a) with ⟨failed, -⟩ | ⟨s₁, found, located⟩
  · rw [failed] at done
    cases done
  · rw [found, Option.bind_some, Option.bind_eq_some_iff] at done
    obtain ⟨bits, read, done⟩ := done
    obtain ⟨rfl, rfl⟩ := Prod.mk.inj (Option.some.inj done)
    have same : bits = (s₁.pages (s₁.blockOf (idOf a))).initSet := by
      rw [touched] at read
      split at read
      · exact (Option.some.inj read).symm
      · exact touch_read read
    rw [(setBits_sameTable ..).blockOf_eq]
    refine ⟨rfl, located.setBits (fun x _ _ mark => ?_) fun _ => False.elim⟩
    rw [same]
    exact (mark.resolve_right id).2

/-- It returns where its bytes were written. -/
theorem getMem_marked (chained : Chained s) (low : sparseHeapStart ≤ a) (fits : a < 2 ^ 64) (positive : 0 < size)
    (marked : ∀ x, a ≤ x → x < a + size → idOf x = idOf a → s.Marked x) :
    ∃ looked s', s.getMem a size false = some (looked, s') := by
  have here : s.blockOf (idOf a) ≠ 0 := (marked a le_rfl (by omega) rfl).1
  have bits : s.touched (s.blockOf (idOf a)) a size false = some (s.pages (s.blockOf (idOf a))).initSet := by
    rw [touched]
    split
    · rfl
    · next checked =>
      apply touch_marked s.checkUB (offsetOf_lt a)
      intro o lo hi small
      have place := of_add_lt (n := o - offsetOf a) low (by omega)
      have mark := (marked (a + (o - offsetOf a)) (by omega) (by omega) place.1).2.resolve_left checked
      rwa [place.1, place.2, Nat.add_sub_cancel' lo] at mark
  rw [getMem_eq chained low fits, locate, if_neg here]
  simp only [Option.bind_some, bits]
  exact ⟨_, _, rfl⟩

end GetMem

/-! ## Free pages -/

/-- There are free pages for those of `ids` that have no block. -/
def Room (s : MemSystem) (ids : Finset Nat) : Prop := (ids.filter fun id => s.blockOf id = 0).card ≤ s.numFreePages

section Room

variable {s s' : MemSystem} {ids : Finset Nat} {id : Nat}

theorem Room.some (room : Room s ids) (member : id ∈ ids) : ¬ (s.blockOf id = 0 ∧ s.numFreePages = 0) := by
  rintro ⟨absent, full⟩
  have here : id ∈ ids.filter fun id => s.blockOf id = 0 := Finset.mem_filter.mpr ⟨member, absent⟩
  have := Finset.card_pos.mpr ⟨id, here⟩
  rw [Room, full] at room
  omega

/-- An access to one of the pages leaves room for the others. -/
theorem Mapped.room {written : Nat → Prop} (mapped : Mapped s s' id written)
    (known : id ∈ ids ∨ s.blockOf id ≠ 0) (room : Room s ids) : Room s' ids := by
  have others : (ids.filter fun j => s'.blockOf j = 0) = (ids.filter fun j => s.blockOf j = 0).erase id := by
    ext j
    rw [Finset.mem_filter, Finset.mem_erase, Finset.mem_filter]
    by_cases own : j = id
    · subst own
      simp [mapped.block]
    · rw [mapped.blocks j (Or.inl own)]
      simp [own]
  rw [Room, others]
  have free := mapped.free
  by_cases absent : s.blockOf id = 0
  · have here : id ∈ ids.filter fun j => s.blockOf j = 0 :=
      Finset.mem_filter.mpr ⟨known.resolve_right fun mapped => mapped absent, absent⟩
    rw [Finset.card_erase_of_mem here]
    rw [if_pos absent] at free
    rw [Room] at room
    omega
  · rw [if_neg absent] at free
    rw [Room] at room
    have := Finset.card_erase_le (s := ids.filter fun j => s.blockOf j = 0) (a := id)
    omega

end Room

end MemSystem

end SystemsLabs.Driver
