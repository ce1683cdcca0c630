/-
# SystemsLabs.CacheSim.Filling -- the lines of a set that are in use

The lines of a set that are in use come first (`Fills`), and seen on these alone an access is
simple (`Uses`): it marks one of them, adds one, or puts another in the place of one.
`Fills.accesses` is the step of this invariant; `Fills.lru_inside` is why the index of the line to
be replaced is always that of a line.
-/
import Mathlib.Data.List.Nodup
import SystemsLabs.CacheSim.Simulator

namespace SystemsLabs.CacheSim.CacheSet

set_option autoImplicit false

variable {E : Nat} {set set' : CacheSet E} {addrTag : Int} {mode : Char} {exit : Exit}
  {used used' pre post : List Line} {L : Line}

/-- What holds of all members still does when one is replaced by another of which it holds. -/
theorem forall_mem_replaced {α : Type} {p : α → Prop} {pre post : List α} {a b : α}
    (old : ∀ x ∈ pre ++ a :: post, p x) (new : p b) : ∀ x ∈ pre ++ b :: post, p x := by
  intro x member
  rcases List.mem_append.mp member with before | later
  · exact old x (List.mem_append_left _ before)
  · rcases List.mem_cons.mp later with rfl | after
    · exact new
    · exact old x (List.mem_append_right _ (List.mem_cons_of_mem _ after))

/-- The value of `LRU` when the line `i` of `E` has been used. -/
def lruOf (E i : Nat) (lru : Int) : Int := if 1 < E then if i = 0 then 1 else if i = 1 then 0 else lru else lru

/-- An access of the lines in use, of `E` that there are. -/
inductive Uses (E : Nat) (addrTag : Int) (mode : Char) (used : List Line) (lru : Int) :
    Exit → List Line → Int → Prop
  | hit {pre post : List Line} {L : Line} : used = pre ++ L :: post → L.tag = addrTag →
      Uses E addrTag mode used lru (.hit L.d) (pre ++ { L with d := L.d || mode == 'S' } :: post)
        (lruOf E pre.length lru)
  | fill {L : Line} : used.length < E → addrTag ∉ used.map Line.tag → L.tag = addrTag →
      L.d = (mode == 'S') → Uses E addrTag mode used lru .fill (used ++ [L]) (lruOf E used.length lru)
  | replace {pre post : List Line} {R : Line} : used = pre ++ R :: post → used.length = E →
      lru = pre.length → addrTag ∉ used.map Line.tag →
      Uses E addrTag mode used lru (.replace R.d) (pre ++ { R with tag := addrTag, d := mode == 'S' } :: post)
        (lruOf E pre.length lru)

/-- The lines `used` are in use, and the others follow them. -/
structure Fills (set : CacheSet E) (used : List Line) : Prop where
  split : ∃ free, set.lines = used ++ free ∧ ∀ L ∈ free, L.v = false ∧ L.d = false
  valid : ∀ L ∈ used, L.v = true
  distinct : (used.map Line.tag).Nodup
  indexed : set.lines.map Line.index = (List.range E).map Int.ofNat
  direct : E = 1 → set.lru = 0
  lru : 1 < E → used ≠ [] → set.lru = 0 ∨ set.lru = 1

theorem initSet_fills (E : Nat) : (initSet E).Fills [] where
  split := ⟨_, rfl, by simp⟩
  valid := by simp
  distinct := List.nodup_nil
  indexed := by
    rw [initSet, List.map_map]
    rfl
  direct := fun one => if_pos one
  lru := fun _ nonempty => absurd rfl nonempty

theorem Fills.length_le (fills : set.Fills used) : used.length ≤ E := by
  obtain ⟨free, split, -⟩ := fills.split
  rw [← set.lines_length, split, List.length_append]
  exact Nat.le_add_right _ _

/-- Where all lines are valid, all are in use. -/
theorem Fills.full (fills : set.Fills used) (full : ∀ x ∈ set.lines, x.v = true) : set.lines = used := by
  obtain ⟨free, split, unused⟩ := fills.split
  cases free with
  | nil => rw [split, List.append_nil]
  | cons x free =>
      have := full x (by simp [split])
      rw [(unused x (List.mem_cons_self ..)).1] at this
      cases this

theorem Fills.index_eq (fills : set.Fills used) (split : set.lines = pre ++ L :: post) :
    L.index = pre.length := by
  have inside : pre.length < E := by
    rw [← set.lines_length, split]
    simp
  have same := congrArg (fun l : List Int => l[pre.length]?) fills.indexed
  simpa [split, inside] using same

theorem Fills.lruAfter (fills : set.Fills used) (split : set.lines = pre ++ L :: post) :
    set.lruAfter L = lruOf E pre.length set.lru := by
  have index := fills.index_eq split
  simp only [CacheSet.lruAfter, lruOf, index]
  norm_cast

/-- Using a line leaves `LRU` among the first two. -/
theorem Fills.lruOf (fills : set.Fills used) (nonempty : pre ≠ [] → used ≠ []) :
    (E = 1 → lruOf E pre.length set.lru = 0) ∧
      (1 < E → lruOf E pre.length set.lru = 0 ∨ lruOf E pre.length set.lru = 1) := by
  constructor
  · intro one
    rw [CacheSet.lruOf, if_neg (by omega)]
    exact fills.direct one
  · intro several
    rw [CacheSet.lruOf, if_pos several]
    split
    · exact Or.inr rfl
    · next notFirst =>
      split
      · exact Or.inl rfl
      · apply fills.lru several
        apply nonempty
        rintro rfl
        exact notFirst rfl

/-- Changing a line but for its index. -/
theorem Fills.after (fills : set.Fills used) {L' : Line} (split : set.lines = pre ++ L :: post)
    (split' : set'.lines = pre ++ L' :: post) (index : L'.index = L.index)
    (lru : set'.lru = set.lruAfter L) (nonempty : pre ≠ [] → used ≠ [])
    (free : ∃ free, set'.lines = used' ++ free ∧ ∀ L ∈ free, L.v = false ∧ L.d = false)
    (valid : ∀ L ∈ used', L.v = true) (distinct : (used'.map Line.tag).Nodup) : set'.Fills used' where
  split := free
  valid := valid
  distinct := distinct
  indexed := by
    rw [← fills.indexed, split, split', List.map_append, List.map_append, List.map_cons, List.map_cons, index]
  direct := fun one => lru ▸ fills.lruAfter split ▸ (fills.lruOf nonempty).1 one
  lru := fun several _ => lru ▸ fills.lruAfter split ▸ (fills.lruOf nonempty).2 several

/-- A line that is valid is in use. -/
theorem Fills.split_used (fills : set.Fills used) (split : set.lines = pre ++ L :: post)
    (valid : L.v = true) : ∃ rest free, used = pre ++ L :: rest ∧ post = rest ++ free ∧
      ∀ L ∈ free, L.v = false ∧ L.d = false := by
  obtain ⟨free, isFree, invalid⟩ := fills.split
  rw [split] at isFree
  rcases List.append_eq_append_iff.mp isFree with ⟨mid, rfl, isMid⟩ | ⟨mid, rfl, isMid⟩
  · cases mid with
    | nil =>
        rw [List.nil_append] at isMid
        have := (invalid L (isMid ▸ List.mem_cons_self ..)).1
        rw [valid] at this
        cases this
    | cons x rest =>
        obtain ⟨rfl, rfl⟩ := List.cons.inj isMid
        exact ⟨rest, free, rfl, rfl, invalid⟩
  · have inFree : L ∈ free := by
      rw [isMid]
      exact List.mem_append_right _ (List.mem_cons_self ..)
    have := (invalid L inFree).1
    rw [valid] at this
    cases this

/-- A line that is the first one not valid is the first one not in use. -/
theorem Fills.split_free (fills : set.Fills used) (split : set.lines = pre ++ L :: post)
    (valid : ∀ x ∈ pre, x.v = true) (invalid : L.v = false) :
    used = pre ∧ L.d = false ∧ ∀ L ∈ post, L.v = false ∧ L.d = false := by
  obtain ⟨free, isFree, unused⟩ := fills.split
  rw [split] at isFree
  have last : used = pre ∧ free = L :: post := by
    rcases List.append_eq_append_iff.mp isFree with ⟨mid, isUsed, isMid⟩ | ⟨mid, isPre, isMid⟩
    · cases mid with
      | nil => exact ⟨by simpa using isUsed, isMid.symm⟩
      | cons x rest =>
          obtain ⟨rfl, -⟩ := List.cons.inj isMid
          have := fills.valid L (by simp [isUsed])
          rw [invalid] at this
          cases this
    · cases mid with
      | nil => exact ⟨by simpa using isPre.symm, by simpa using isMid⟩
      | cons x rest =>
          have := valid x (by simp [isPre])
          rw [(unused x (by simp [isMid])).1] at this
          cases this
  obtain ⟨isUsed, isFree⟩ := last
  rw [isFree] at unused
  exact ⟨isUsed, (unused L (List.mem_cons_self ..)).2, fun x member => unused x (List.mem_cons_of_mem _ member)⟩

/-- Replacing the tag of one line by another that no line has. -/
theorem nodup_replace {L' : Line} (distinct : ((pre ++ L :: post).map Line.tag).Nodup)
    (absent : L'.tag ∉ (pre ++ L :: post).map Line.tag) : ((pre ++ L' :: post).map Line.tag).Nodup := by
  rw [List.map_append, List.map_cons, List.nodup_middle, List.nodup_cons] at distinct ⊢
  refine ⟨?_, distinct.2⟩
  intro member
  apply absent
  rw [← List.map_append] at member
  obtain ⟨x, inLines, same⟩ := List.mem_map.mp member
  rw [← same]
  apply List.mem_map_of_mem
  rw [List.mem_append] at inLines ⊢
  exact inLines.imp_right (List.mem_cons_of_mem _)

/-- **One access** of a set. -/
theorem Fills.accesses (fills : set.Fills used) (step : Accesses addrTag mode set exit set') :
    ∃ used', Uses E addrTag mode used set.lru exit used' set'.lru ∧ set'.Fills used' := by
  have count := set.lines_length
  cases step with
  | @hit pre post L _ split _ valid isTag split' lru =>
      obtain ⟨rest, free, rfl, rfl, unused⟩ := fills.split_used split valid
      rw [lru.trans (fills.lruAfter split)]
      refine ⟨_, .hit rfl isTag,
        fills.after split split' rfl lru (by simp) ⟨free, ?_, unused⟩ ?_ ?_⟩
      · rw [split']
        simp
      · exact forall_mem_replaced fills.valid valid
      · have distinct := fills.distinct
        rw [List.map_append, List.map_cons] at distinct ⊢
        exact distinct
  | @fill pre post L _ split others invalid split' lru =>
      obtain ⟨rfl, clean, unused⟩ := fills.split_free split (fun x member => (others x member).1) invalid
      have absent : addrTag ∉ used.map Line.tag := by
        intro member
        obtain ⟨x, inUse, isTag⟩ := List.mem_map.mp member
        exact (others x inUse).2 isTag
      obtain ⟨L', isNew⟩ : ∃ L' : Line, L' = { L with tag := addrTag, v := true, d := L.d || mode == 'S' } :=
        ⟨_, rfl⟩
      rw [← isNew] at split'
      have isTag : L'.tag = addrTag := by rw [isNew]
      have dirty : L'.d = (mode == 'S') := by rw [isNew, clean, Bool.false_or]
      have room : used.length < E := by
        rw [← count, split]
        simp
      rw [lru.trans (fills.lruAfter split)]
      refine ⟨used ++ [L'], .fill room absent isTag dirty,
        fills.after split split' (by rw [isNew]) lru id ⟨post, by simp [split'], unused⟩ ?_ ?_⟩
      · intro x member
        rcases List.mem_append.mp member with old | last
        · exact fills.valid x old
        · rw [List.mem_singleton.mp last, isNew]
      · rw [List.map_append, List.map_singleton, isTag]
        exact fills.distinct.append (List.nodup_singleton _) (List.disjoint_singleton.mpr absent)
  | @replace pre post R _ split others isLru split' lru =>
      obtain rfl : pre ++ R :: post = used := split.symm.trans (fills.full fun x member => (others x member).1)
      have absent : addrTag ∉ (pre ++ R :: post).map Line.tag := by
        intro member
        obtain ⟨x, inUse, isTag⟩ := List.mem_map.mp member
        exact (others x (split ▸ inUse)).2 isTag
      rw [lru.trans (fills.lruAfter split)]
      refine ⟨_, .replace rfl (split ▸ count) isLru absent,
        fills.after split split' rfl lru (by simp) ⟨[], by simp [split'], by simp⟩ ?_ ?_⟩
      · have valid := fills.valid R (List.mem_append_right _ List.mem_cons_self)
        exact forall_mem_replaced fills.valid valid
      · exact nodup_replace fills.distinct absent

/-- Where all lines are in use, `LRU` is the index of a line. -/
theorem Fills.lru_inside (fills : set.Fills used) (positive : 1 ≤ E) (full : ∀ x ∈ set.lines, x.v = true) :
    ∃ i, i < E ∧ set.lru = Int.ofNat i := by
  by_cases one : E = 1
  · exact ⟨0, positive, fills.direct one⟩
  · have several : 1 < E := by omega
    have nonempty : used ≠ [] := by
      rintro rfl
      have count := set.lines_length
      rw [fills.full full, List.length_nil] at count
      omega
    rcases fills.lru several nonempty with zero | one
    · exact ⟨0, positive, zero⟩
    · exact ⟨1, several, one⟩

end SystemsLabs.CacheSim.CacheSet
