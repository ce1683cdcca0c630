/-
# SystemsLabs.Driver.Overlap -- when the overlap check of the driver is right

The driver's overlap check is right as long as it can see both neighbours of a payload.  It
finds the upper one through the lower one: a payload below all that are recorded has no
neighbours for it, and the old ranges are lost from the list.  An end that wraps around past
the last address is below the payload itself and is compared as such.  And a payload that leaves
the heap is refused, whether it overlaps another or not.

`Noticed` says of a call that none of this goes wrong.  `overlap_check_iff`: over every run with
debugging on, each call answers right and leaves list, tree and recorded payloads together if each
call is `Noticed`, and where no payload wraps around only then.
-/
import SystemsLabs.Driver.RangeList

namespace SystemsLabs.Driver

set_option autoImplicit false

open Theory.PointerPath Theory.LinkedTree Theory.Runs

namespace RangeSet

variable {s s' : RangeSet} {p q lo hi z : Addr} {index : Int} {l : List Addr} {m : Recorded}

/-- The ranges at or below an address and those above it, and the tree after the search. -/
structure Searched (s : RangeSet) (m : Recorded) (lo : Addr) (pre post : List Addr) (tree : SplayTree) : Prop where
  below : ∀ q ∈ pre, s.loAt q ≤ lo
  above : ∀ q ∈ post, lo < s.loAt q
  nodes : tree.nodes = s.loTree.nodes
  tracks : Tracks { s with loTree := tree } m (pre ++ post)

/-- The upper neighbour that `add_range` sees: none, where there is no lower one. -/
def seenNext (pre post : List Addr) : Addr := if pre = [] then 0 else post.headD 0

/-- What `add_range` does once the neighbours are found. -/
theorem Tracks.record_eq (tracks : s.Tracks m l) (small : lo.toNat < 2 ^ 63) (hi : Addr) (index : Int) (p z : Addr) :
    ∃ pre post tree, l = pre ++ post ∧ Searched s m lo pre post tree ∧
      s.record lo hi index p z =
        match s.overlapOf (pre.getLastD 0) (seenNext pre post) lo hi with
        | some error => some (.error error, { s with loTree := tree })
        | none => (insertRange { s with loTree := tree } (pre.getLastD 0) (seenNext pre post) lo hi index p z).map
            (.ok (), ·) := by
  obtain ⟨pre, post, tree, rfl, found, below, above, nodes, kept⟩ := tracks.neighbours small
  have live : ∀ q ∈ pre ++ post, q ∈ s.ranges := fun q member => (tracks.live q).mpr member
  have isNext : s.nextSeen (pre.getLastD 0) = seenNext pre post := by
    rcases List.eq_nil_or_concat' pre with rfl | ⟨front, r, rfl⟩
    · rfl
    · have real : r ≠ 0 := by
        rintro rfl
        exact tracks.real (by simp)
      have list : TwoWay s.nextAt s.prevAt 0 s.list (front ++ r :: post) := by simpa using tracks.list
      have links := list.links
      rw [nextSeen, List.getLastD_concat, if_neg real, seenNext, if_neg (by simp), ← links.1]
  have liveNext : seenNext pre post ≠ 0 → seenNext pre post ∈ s.ranges := by
    unfold seenNext
    split
    · exact fun impossible => absurd rfl impossible
    · exact fun real => live _ (List.mem_append_right _ (headD_mem real))
  refine ⟨pre, post, tree, rfl, ⟨below, above, nodes, kept⟩, ?_⟩
  rw [← isNext] at liveNext ⊢
  exact record_found found (fun real => live _ (List.mem_append_left _ (getLastD_mem real))) liveNext hi index p z

/-! ## Payloads -/

/-- The payload is apart from every one that is recorded. -/
def Disjoint (m : Recorded) (lo : Addr) (size : UInt64) : Prop :=
  ∀ lo' size', m lo' = some size' →
    lo.toNat + size.toNat ≤ lo'.toNat ∨ lo'.toNat + size'.toNat ≤ lo.toNat

def InHeap (heap : Extent) (lo : Addr) (size : UInt64) : Prop :=
  heap.lo ≤ lo ∧ lo.toNat + size.toNat ≤ heap.hi.toNat + 1

variable {heap : Extent} {size : UInt64} {pre post : List Addr} {tree : SplayTree}

theorem end_toNat (lo : Addr) (positive : size ≠ 0) :
    (lo + size - 1).toNat = if lo.toNat + size.toNat ≤ 2 ^ 64 then lo.toNat + size.toNat - 1
      else lo.toNat + size.toNat - 1 - 2 ^ 64 := by
  have sizePos : 0 < size.toNat := Nat.pos_of_ne_zero fun zero => positive (UInt64.toNat_inj.mp zero)
  have ltL := lo.toNat_lt
  have ltS := size.toNat_lt
  rw [UInt64.toNat_sub, UInt64.toNat_add, UInt64.toNat_one]
  split <;> omega

/-- A recorded payload in the terms of its range. -/
theorem Tracks.size_at (tracks : s.Tracks m l) (member : q ∈ l) :
    m (s.loAt q) = some (s.hiAt q - s.loAt q + 1) ∧ (s.loAt q).toNat ≤ (s.hiAt q).toNat ∧
      (s.loAt q).toNat + (s.hiAt q - s.loAt q + 1).toNat = (s.hiAt q).toNat + 1 := by
  have fit := tracks.fits q member
  have le := UInt64.le_iff_toNat_le.mp fit.1
  refine ⟨(tracks.recorded _ _).mpr ⟨q, member, rfl, rfl⟩, le, ?_⟩
  rw [size_toNat fit.1 fit.2]
  omega

/-- The ranges on both sides decide whether the payload is disjoint from all. -/
theorem Searched.disjoint_iff (searched : Searched s m lo pre post tree) (fit : lo.toNat + size.toNat ≤ 2 ^ 64)
    (positive : size ≠ 0) :
    Disjoint m lo size ↔ (∀ q ∈ pre, s.hiAt q < lo) ∧ ∀ q ∈ post, lo + size - 1 < s.loAt q := by
  have sizes : ∀ q ∈ pre ++ post, m (s.loAt q) = some (s.hiAt q - s.loAt q + 1) ∧
      (s.loAt q).toNat ≤ (s.hiAt q).toNat ∧
      (s.loAt q).toNat + (s.hiAt q - s.loAt q + 1).toNat = (s.hiAt q).toNat + 1 :=
    fun q member => searched.tracks.size_at member
  have sizePos : 0 < size.toNat := Nat.pos_of_ne_zero fun zero => positive (UInt64.toNat_inj.mp zero)
  have ends := end_toNat lo positive
  rw [if_pos fit] at ends
  simp only [UInt64.lt_iff_toNat_lt, ends]
  constructor
  · intro disjoint
    refine ⟨fun q inPre => ?_, fun q inPost => ?_⟩
    · obtain ⟨recorded, le, sum⟩ := sizes q (List.mem_append_left _ inPre)
      have below := UInt64.le_iff_toNat_le.mp (searched.below q inPre)
      have apart := disjoint _ _ recorded
      omega
    · obtain ⟨recorded, le, sum⟩ := sizes q (List.mem_append_right _ inPost)
      have above := UInt64.lt_iff_toNat_lt.mp (searched.above q inPost)
      have apart := disjoint _ _ recorded
      omega
  · rintro ⟨before, after⟩ lo' size' recorded
    obtain ⟨q, member, isLo, isSize⟩ := (searched.tracks.recorded lo' size').mp recorded
    obtain ⟨-, le, sum⟩ := sizes q member
    have isLo : s.loAt q = lo' := isLo
    have isSize : s.hiAt q - s.loAt q + 1 = size' := isSize
    rw [isSize, isLo] at sum
    rw [isLo] at le
    obtain inPre | inPost := List.mem_append.mp member
    · have := before q inPre
      omega
    · have := after q inPost
      rw [isLo] at this
      omega

/-! ## Calls -/

inductive RangeCall where
  /-- `p` and `z` are the addresses that `malloc` answers -/
  | add (heap : Extent) (lo : Addr) (size : UInt64) (index : Int) (p z : Addr)
  | remove (lo : Addr)

/-- The set of ranges, and the payloads whose `add_range` returned true and that were not
removed since. -/
structure Recording where
  set : RangeSet
  recorded : Recorded

def Recording.start : Recording := ⟨newRangeSet, fun _ => none⟩

def Recording.apply (debugMode : DebugMode) (r : Recording) : RangeCall → Option (Except RangeError Unit × Recording)
  | .add heap lo size index p z =>
      (r.set.addRange debugMode heap lo size index p z).map fun (answer, set) =>
        (answer, ⟨set, if answer.isOk then Function.update r.recorded lo (some size) else r.recorded⟩)
  | .remove lo => (r.set.removeRange lo).map fun set => (.ok (), ⟨set, Function.update r.recorded lo none⟩)

/-- An aligned address inside the heap, a positive size, and new addresses from `malloc`. -/
def Recording.Allows (r : Recording) : RangeCall → Prop
  | .add heap lo size _ p z =>
      lo % alignment = 0 ∧ heap.lo ≤ lo ∧ lo ≤ heap.hi ∧ size ≠ 0 ∧
        p ≠ 0 ∧ p ∉ r.set.ranges ∧ z ≠ 0 ∧ z ∉ r.set.loTree.nodes
  | .remove _ => True

/-- The answer is true exactly for a payload that is disjoint from all others. -/
def Right (m : Recorded) : RangeCall → Except RangeError Unit → Prop
  | .add _ lo size _ _ _, answer => answer.isOk ↔ Disjoint m lo size
  | .remove _, _ => True

/-- The doubly linked list holds exactly the recorded payloads, in increasing order, and the
tree holds the same ranges. -/
def Recording.Faithful (r : Recording) : Prop :=
  ∃ l t, TwoWay r.set.nextAt r.set.prevAt 0 r.set.list l ∧ (∀ p ∈ l, p ≠ 0 ∧ p ∈ r.set.ranges) ∧
    l.Pairwise (r.set.loAt · < r.set.loAt ·) ∧
    (∀ lo size, r.recorded lo = some size ↔ ∃ p ∈ l, r.set.loAt p = lo ∧ r.set.hiAt p - r.set.loAt p + 1 = size) ∧
    r.set.loTree.SearchTree t ∧
    (inorder t).map (fun x => (r.set.loTree.keyAt x, r.set.loTree.recordAt x)) =
      l.map fun p => (tkey (r.set.loAt p), p)

/-- A call returns, with the right answer, and keeps list, tree and payloads together. -/
def Recording.Correct (debugMode : DebugMode) (r : Recording) (c : RangeCall) : Prop :=
  ∃ answer r', r.apply debugMode c = some (answer, r') ∧ Right r.recorded c answer ∧ r'.Faithful

/-- Some recorded payload at or below the address reaches past it. -/
def Covered (m : Recorded) (lo : Addr) : Prop :=
  ∃ lo' ≤ lo, ∃ size', m lo' = some size' ∧ lo.toNat < lo'.toNat + size'.toNat

/-- The payload is in the heap and is the first or has a lower neighbour; or its end is outside the
heap and it overlaps a recorded one; or a recorded payload contains its address. -/
def Noticed (m : Recorded) : RangeCall → Prop
  | .remove _ => True
  | .add heap lo size _ _ _ =>
      (InHeap heap lo size ∧ ((∀ lo', m lo' = none) ∨ ∃ lo' ≤ lo, m lo' ≠ none)) ∨
      ((lo + size - 1 < heap.lo ∨ heap.hi < lo + size - 1) ∧ ¬ Disjoint m lo size) ∨ Covered m lo

/-- The payload ends at an address. -/
def Ordered : RangeCall → Prop
  | .add _ lo size _ _ _ => lo.toNat + size.toNat ≤ 2 ^ 64
  | .remove _ => True

theorem Covered.not_disjoint (covered : Covered m lo) (positive : size ≠ 0) : ¬ Disjoint m lo size := by
  intro disjoint
  obtain ⟨lo', le, size', recorded, reaches⟩ := covered
  have nonempty : 0 < size.toNat := Nat.pos_of_ne_zero fun zero => positive (UInt64.toNat_inj.mp zero)
  have apart := disjoint lo' size' recorded
  rw [UInt64.le_iff_toNat_le] at le
  omega

theorem addRange_eq {debugMode : DebugMode} (debugging : debugMode ≠ .none) (aligned : lo % alignment = 0)
    (lower : heap.lo ≤ lo) (upper : lo ≤ heap.hi) (positive : size ≠ 0) :
    s.addRange debugMode heap lo size index p z =
      if lo + size - 1 < heap.lo ∨ heap.hi < lo + size - 1 then
        some (.error (.outsideHeap lo (lo + size - 1) heap.lo heap.hi), s)
      else s.record lo (lo + size - 1) index p z := by
  rw [addRange]
  simp only [if_neg positive, aligned, ne_eq, not_true_eq_false, if_false, gt_iff_lt, UInt64.not_lt.mpr lower,
    UInt64.not_lt.mpr upper, false_or, debugging]

/-- The end of a payload that does not leave the heap, or whose end wraps around into it. -/
theorem end_spec (positive : size ≠ 0) (lower : heap.lo ≤ lo) (upper : lo ≤ heap.hi)
    (inside : ¬ (lo + size - 1 < heap.lo ∨ heap.hi < lo + size - 1)) :
    (lo.toNat + size.toNat ≤ 2 ^ 64 ∧ InHeap heap lo size ∧ lo ≤ lo + size - 1 ∧ (lo + size - 1).toNat < 2 ^ 63) ∨
      2 ^ 64 < lo.toNat + size.toNat ∧ ¬ InHeap heap lo size ∧ lo + size - 1 < lo := by
  have sizePos : 0 < size.toNat := Nat.pos_of_ne_zero fun zero => positive (UInt64.toNat_inj.mp zero)
  have ends := end_toNat lo positive
  have user := heap.user
  have ltS := size.toNat_lt
  rw [UInt64.lt_iff_toNat_lt, UInt64.lt_iff_toNat_lt, not_or] at inside
  rw [UInt64.le_iff_toNat_le] at upper
  by_cases fit : lo.toNat + size.toNat ≤ 2 ^ 64
  · rw [if_pos fit] at ends
    refine .inl ⟨fit, ⟨lower, by omega⟩, ?_, by omega⟩
    rw [UInt64.le_iff_toNat_le]
    omega
  · rw [if_neg fit] at ends
    refine .inr ⟨by omega, fun inHeap => ?_, ?_⟩
    · have := inHeap.2
      omega
    · rw [UInt64.lt_iff_toNat_lt]
      omega

/-- A payload whose end is outside is not in the heap. -/
theorem not_inHeap (positive : size ≠ 0) (outside : lo + size - 1 < heap.lo ∨ heap.hi < lo + size - 1) :
    ¬ InHeap heap lo size := by
  rintro ⟨lower, upper⟩
  have ends := end_toNat lo positive
  have user := heap.user
  rw [if_pos (by omega)] at ends
  rw [UInt64.le_iff_toNat_le] at lower
  rw [UInt64.lt_iff_toNat_lt, UInt64.lt_iff_toNat_lt] at outside
  have sizePos : 0 < size.toNat := Nat.pos_of_ne_zero fun zero => positive (UInt64.toNat_inj.mp zero)
  omega

theorem size_of_end (lo size : UInt64) : lo + size - 1 - lo + 1 = size := by
  grind

variable {debugMode : DebugMode}

/-- The payloads that a recorded range holds are recorded at its address. -/
theorem Tracks.ne_none (tracks : s.Tracks m l) (member : q ∈ l) : m (s.loAt q) ≠ none := by
  rw [(tracks.size_at member).1]
  exact Option.some_ne_none _

/-- **A noticed payload** gets the right answer. -/
theorem Tracks.add_noticed (tracks : s.Tracks m l) (debugging : debugMode ≠ .none) (aligned : lo % alignment = 0)
    (lower : heap.lo ≤ lo) (upper : lo ≤ heap.hi) (positive : size ≠ 0) (realP : p ≠ 0) (freshP : p ∉ s.ranges)
    (realZ : z ≠ 0) (freshZ : z ∉ s.loTree.nodes) (noticed : Noticed m (.add heap lo size index p z)) :
    ∃ answer s' l', s.addRange debugMode heap lo size index p z = some (answer, s') ∧
      (answer.isOk ↔ Disjoint m lo size) ∧
      s'.Tracks (if answer.isOk then Function.update m lo (some size) else m) l' := by
  rw [addRange_eq debugging aligned lower upper positive]
  by_cases outside : lo + size - 1 < heap.lo ∨ heap.hi < lo + size - 1
  · rw [if_pos outside]
    refine ⟨_, s, l, rfl, ?_, tracks⟩
    have overlaps : ¬ Disjoint m lo size := by
      obtain ⟨inHeap, -⟩ | ⟨-, overlaps⟩ | covered := noticed
      · exact absurd inHeap (not_inHeap positive outside)
      · exact overlaps
      · exact covered.not_disjoint positive
    exact ⟨fun ok => (by cases ok), fun disjoint => absurd disjoint overlaps⟩
  · rw [if_neg outside]
    have small : lo.toNat < 2 ^ 63 := by
      have user := heap.user
      rw [UInt64.le_iff_toNat_le] at upper
      omega
    obtain ⟨pre, post, tree, rfl, searched, step⟩ := tracks.record_eq small (lo + size - 1) index p z
    rw [step]
    have both := tracks.overlapOf_eq_none searched.below (lo + size - 1)
    have recorded : ∀ q ∈ pre ++ post, m (s.loAt q) ≠ none := fun q member => tracks.ne_none member
    rcases end_spec positive lower upper outside with ⟨fit, inHeap, ordered, user⟩ | ⟨wraps, notInHeap, below⟩
    · -- both neighbours are seen
      have seen : seenNext pre post = post.headD 0 := by
        unfold seenNext
        split
        · next nothingBelow =>
          subst nothingBelow
          cases post with
          | nil => rfl
          | cons q post =>
              exfalso
              -- a range at or below the address would be among those below it
              have off : ∀ lo' ≤ lo, m lo' = none := fun lo' le => by
                by_contra isRecorded
                obtain ⟨size', isSize⟩ := Option.ne_none_iff_exists'.mp isRecorded
                obtain ⟨u, member, isLo, -⟩ := (tracks.recorded lo' size').mp isSize
                have above := searched.above u member
                rw [isLo] at above
                exact UInt64.not_le.mpr above le
              obtain ⟨-, nothing | ⟨lo', le, isRecorded⟩⟩ | ⟨early | late, -⟩ | ⟨lo', le, size', isSize, -⟩ := noticed
              · exact recorded q (by simp) (nothing _)
              · exact isRecorded (off lo' le)
              · exact outside (.inl early)
              · exact outside (.inr late)
              · rw [off lo' le] at isSize
                cases isSize
        · rfl
      have disjoint := searched.disjoint_iff fit positive
      rw [seen]
      by_cases apart : Disjoint m lo size
      · obtain ⟨before, after⟩ := disjoint.mp apart
        rw [both.mpr ⟨before, after⟩]
        obtain ⟨s', inserted, tracks'⟩ := searched.tracks.insert ordered user before after realP freshP realZ
          (searched.nodes ▸ freshZ) index
        rw [size_of_end] at tracks'
        refine ⟨.ok (), s', _, by rw [inserted]; rfl, ?_, tracks'⟩
        exact ⟨fun _ => apart, fun _ => rfl⟩
      · obtain ⟨error, overlaps⟩ := Option.ne_none_iff_exists'.mp fun clear => apart (disjoint.mpr (both.mp clear))
        rw [overlaps]
        refine ⟨_, _, _, rfl, ?_, searched.tracks⟩
        exact ⟨fun ok => (by cases ok), fun disjoint => absurd disjoint apart⟩
    · -- a payload that holds the address is in the way
      have covered : Covered m lo := by
        obtain ⟨inHeap, -⟩ | ⟨leaves, -⟩ | covered := noticed
        · exact absurd inHeap notInHeap
        · exact absurd leaves outside
        · exact covered
      obtain ⟨lo', le, size', isSize, covers⟩ := id covered
      obtain ⟨u, member, isLo, isEnd⟩ := (tracks.recorded lo' size').mp isSize
      have inPre : u ∈ pre := by
        refine (List.mem_append.mp member).resolve_right fun inPost => ?_
        have above := searched.above u inPost
        rw [isLo] at above
        exact UInt64.not_le.mpr above le
      have seen : seenNext pre post = post.headD 0 := if_neg (List.ne_nil_of_mem inPre)
      have blocked : ¬ ∀ q ∈ pre, s.hiAt q < lo := by
        intro before
        obtain ⟨-, -, sum⟩ := tracks.size_at member
        have := UInt64.lt_iff_toNat_lt.mp (before u inPre)
        rw [isEnd, isLo] at sum
        omega
      rw [seen]
      obtain ⟨error, overlaps⟩ := Option.ne_none_iff_exists'.mp fun clear => blocked (both.mp clear).1
      rw [overlaps]
      refine ⟨_, _, _, rfl, ?_, searched.tracks⟩
      exact ⟨fun ok => (by cases ok), fun disjoint => absurd disjoint (covered.not_disjoint positive)⟩

/-- The only range of a list whose head has no successor. -/
theorem eq_singleton {next prev : Addr → Addr} (list : TwoWay next prev 0 p l) (real : ∀ q ∈ l, q ≠ 0)
    (present : p ≠ 0) (last : next p = 0) : l = [p] := by
  cases l with
  | nil => exact absurd list.forward present
  | cons q l =>
      obtain ⟨rfl, rest⟩ := list.forward
      rw [last] at rest
      cases l with
      | nil => rfl
      | cons u l => exact absurd rest.1.symm (real u (by simp))

/-- **A payload that is not noticed** gets a wrong answer, or the list loses ranges. -/
theorem Tracks.add_unnoticed (tracks : s.Tracks m l) (debugging : debugMode ≠ .none) (aligned : lo % alignment = 0)
    (lower : heap.lo ≤ lo) (upper : lo ≤ heap.hi) (positive : size ≠ 0) (fit : lo.toNat + size.toNat ≤ 2 ^ 64)
    (unnoticed : ¬ Noticed m (.add heap lo size index p z)) {answer : Except RangeError Unit}
    (returned : s.addRange debugMode heap lo size index p z = some (answer, s'))
    (right : answer.isOk ↔ Disjoint m lo size) :
    ¬ Recording.Faithful ⟨s', if answer.isOk then Function.update m lo (some size) else m⟩ := by
  rw [addRange_eq debugging aligned lower upper positive] at returned
  rw [Noticed, not_or, not_or] at unnoticed
  obtain ⟨notFound, notOverlapping, -⟩ := unnoticed
  have inside : ¬ (lo + size - 1 < heap.lo ∨ heap.hi < lo + size - 1) := by
    intro outside
    rw [if_pos outside] at returned
    obtain ⟨rfl, -⟩ := Prod.mk.inj (Option.some.inj returned)
    have refused := right.mpr (not_not.mp fun overlaps => notOverlapping ⟨outside, overlaps⟩)
    cases refused
  rw [if_neg inside] at returned
  have small : lo.toNat < 2 ^ 63 := by
    have user := heap.user
    rw [UInt64.le_iff_toNat_le] at upper
    omega
  obtain ⟨pre, post, tree, rfl, searched, step⟩ := tracks.record_eq small (lo + size - 1) index p z
  rw [step] at returned
  have sizes : ∀ q ∈ pre ++ post, m (s.loAt q) = some (s.hiAt q - s.loAt q + 1) ∧
      (s.loAt q).toNat ≤ (s.hiAt q).toNat ∧
      (s.loAt q).toNat + (s.hiAt q - s.loAt q + 1).toNat = (s.hiAt q).toNat + 1 :=
    fun q member => tracks.size_at member
  have inHeap : InHeap heap lo size := by
    obtain ⟨-, inHeap, -, -⟩ | ⟨wraps, -, -⟩ := end_spec positive lower upper inside
    · exact inHeap
    · omega
  -- there are only ranges above, and none of them is seen
  have nothingBelow : ∀ lo' ≤ lo, m lo' = none := fun lo' le => by
    by_contra isRecorded
    exact notFound ⟨inHeap, .inr ⟨lo', le, isRecorded⟩⟩
  obtain ⟨lo', present⟩ : ∃ lo', m lo' ≠ none := by
    by_contra nothing
    exact notFound ⟨inHeap, .inl fun lo' => not_not.mp fun isRecorded => nothing ⟨lo', isRecorded⟩⟩
  have noPre : pre = [] := by
    cases pre with
    | nil => rfl
    | cons q pre =>
        have absent := nothingBelow _ (searched.below q (List.mem_cons_self ..))
        rw [(sizes q (by simp)).1] at absent
        cases absent
  subst noPre
  rw [show s.overlapOf ([].getLastD 0) (seenNext [] post) lo (lo + size - 1) = none from rfl] at returned
  obtain ⟨s₁, inserted, same⟩ := Option.map_eq_some_iff.mp returned
  obtain ⟨rfl, rfl⟩ := Prod.mk.inj same
  rintro ⟨l', t', list, real, -, recorded, -⟩
  obtain ⟨isHead, isLast, isLo, realP⟩ : s₁.list = p ∧ s₁.nextAt p = 0 ∧ s₁.loAt p = lo ∧ p ≠ 0 := by
    rw [insertRange] at inserted
    split at inserted
    · cases inserted
    · next realP =>
      obtain ⟨s₂, link, inserted⟩ := Option.bind_eq_some_iff.mp inserted
      obtain ⟨s₃, link', inserted⟩ := Option.bind_eq_some_iff.mp inserted
      obtain ⟨answer, -, inserted⟩ := Option.bind_eq_some_iff.mp inserted
      rw [List.getLastD_nil, linkAfter, if_pos rfl, Option.some_inj] at link
      rw [seenNext, if_pos rfl, linkBefore, if_pos rfl, Option.some_inj] at link'
      obtain rfl := Option.some.inj inserted
      subst link' link
      refine ⟨rfl, ?_, ?_, realP⟩
      · simp [nextAt, rangeAt, seenNext]
      · simp [loAt, rangeAt]
  obtain rfl := eq_singleton (isHead ▸ list) (fun q member => (real q member).1) realP isLast
  obtain ⟨size', isSize⟩ := Option.ne_none_iff_exists'.mp present
  have other : lo' ≠ lo := by
    rintro rfl
    exact present (nothingBelow lo' (UInt64.le_refl lo'))
  obtain ⟨q, member, isLo', -⟩ := (recorded lo' size').mp (by
    show Function.update m lo (some size) lo' = some size'
    rw [Function.update_of_ne other, isSize])
  rw [List.mem_singleton] at member
  subst member
  exact other (isLo'.symm.trans isLo)

/-! ## Runs -/

/-- Two lists of bindings in the order of their keys that have the same members. -/
theorem eq_of_sorted_keys {l l' : List (Int × Addr)} (sorted : l.Pairwise (·.1 < ·.1))
    (sorted' : l'.Pairwise (·.1 < ·.1)) (same : ∀ b, b ∈ l ↔ b ∈ l') : l = l' := by
  have distinct : ∀ {l : List (Int × Addr)}, l.Pairwise (·.1 < ·.1) → l.Nodup := fun sorted =>
    sorted.imp fun less equal => (lt_irrefl _ (equal ▸ less)).elim
  refine List.Perm.eq_of_pairwise (fun a b _ _ less greater => ?_) sorted sorted'
    ((List.perm_ext_iff_of_nodup (distinct sorted) (distinct sorted')).mpr same)
  exact absurd (less.trans greater) (lt_irrefl _)

variable {r r' : Recording} {c : RangeCall} {answer : Except RangeError Unit}

theorem Tracks.faithful (tracks : r.set.Tracks r.recorded l) : r.Faithful := by
  obtain ⟨contents, ⟨t, st, holds⟩, binds⟩ := tracks.tree
  have increasing : l.Pairwise (r.set.loAt · < r.set.loAt ·) :=
    tracks.ordered.imp_of_mem fun a _ less => UInt64.lt_of_le_of_lt (tracks.fits _ a).1 less
  have keys : ∀ q ∈ l, tkey (r.set.loAt q) = (r.set.loAt q).toNat := fun q member => by
    obtain ⟨le, user⟩ := tracks.fits q member
    rw [UInt64.le_iff_toNat_le] at le
    exact tkey_of_lt (by omega)
  refine ⟨l, t, tracks.list, fun p member => ⟨?_, (tracks.live p).mpr member⟩, increasing, tracks.recorded, st, ?_⟩
  · rintro rfl
    exact tracks.real member
  · apply eq_of_sorted_keys
    · exact List.pairwise_map.mpr st.sorted
    · refine List.pairwise_map.mpr (increasing.imp_of_mem fun a b less => ?_)
      rw [keys _ a, keys _ b]
      exact Int.ofNat_lt.mpr (UInt64.lt_iff_toNat_lt.mp less)
    · rintro ⟨k, p⟩
      simp only [List.mem_map, Prod.mk.injEq]
      rw [← holds, binds]
      constructor
      · rintro ⟨member, isKey⟩
        exact ⟨p, member, isKey, rfl⟩
      · rintro ⟨q, member, isKey, rfl⟩
        exact ⟨member, isKey⟩

/-- **A call** that is noticed answers right and keeps the invariant. -/
theorem Recording.apply_noticed (tracks : r.set.Tracks r.recorded l) (debugging : debugMode ≠ .none)
    (allows : r.Allows c) (noticed : Noticed r.recorded c) :
    ∃ answer r' l', r.apply debugMode c = some (answer, r') ∧ Right r.recorded c answer ∧
      r'.set.Tracks r'.recorded l' := by
  cases c with
  | add heap lo size index p z =>
      obtain ⟨aligned, lower, upper, positive, realP, freshP, realZ, freshZ⟩ := allows
      obtain ⟨answer, s', l', step, right, tracks'⟩ := tracks.add_noticed debugging aligned lower upper positive
        realP freshP realZ freshZ noticed
      exact ⟨answer, ⟨s', _⟩, l', by rw [Recording.apply, step]; rfl, right, tracks'⟩
  | remove lo =>
      obtain ⟨s', l', step, tracks'⟩ := tracks.remove lo
      exact ⟨.ok (), ⟨s', _⟩, l', by rw [Recording.apply, step]; rfl, trivial, tracks'⟩

/-- A call that is not noticed is not correct. -/
theorem Recording.noticed_of_correct (tracks : r.set.Tracks r.recorded l) (debugging : debugMode ≠ .none)
    (allows : r.Allows c) (ordered : Ordered c) (correct : r.Correct debugMode c) : Noticed r.recorded c := by
  obtain ⟨answer, r', returned, right, faithful⟩ := correct
  cases c with
  | add heap lo size index p z =>
      by_contra unnoticed
      obtain ⟨aligned, lower, upper, positive, -⟩ := allows
      obtain ⟨⟨answer', s'⟩, step, same⟩ := Option.map_eq_some_iff.mp returned
      obtain ⟨rfl, rfl⟩ := Prod.mk.inj same
      exact tracks.add_unnoticed debugging aligned lower upper positive ordered unnoticed step right faithful
  | remove lo => trivial

def Recording.Step (debugMode : DebugMode) (r : Recording) (c : RangeCall) (r' : Recording) : Prop :=
  r.Allows c ∧ (r.apply debugMode c).map Prod.snd = some r'

theorem step_functional (r : Recording) (c : RangeCall) (r₁ r₂ : Recording) (first : r.Step debugMode c r₁)
    (second : r.Step debugMode c r₂) : r₁ = r₂ :=
  Option.some.inj (first.2.symm.trans second.2)

theorem tracks_start : Recording.start.set.Tracks Recording.start.recorded [] where
  list := ⟨rfl, rfl⟩
  live p := ⟨fun member => absurd member (AList.notMem_empty p), fun member => absurd member List.not_mem_nil⟩
  real := List.not_mem_nil
  tree := ⟨_, SplayTree.implements_treeNew, fun k p => by simp⟩
  fits p member := absurd member List.not_mem_nil
  ordered := List.Pairwise.nil
  recorded lo size := by simp [Recording.start]

/-- The calls of a run with the states they are made in. -/
def EachCall (debugMode : DebugMode) (calls : List RangeCall) (property : Recording → RangeCall → Prop) : Prop :=
  ∀ before c after r, calls = before ++ c :: after → Run (Recording.Step debugMode) .start before r → property r c

/-- The invariant holds as long as every call is noticed. -/
theorem tracks_run {calls before after : List RangeCall} (debugging : debugMode ≠ .none)
    (noticed : EachCall debugMode calls fun r c => (∃ l, r.set.Tracks r.recorded l) → r.Allows c → Noticed r.recorded c)
    (split : calls = before ++ after) (run : Run (Recording.Step debugMode) .start before r) :
    ∃ l, r.set.Tracks r.recorded l := by
  refine run.history (fun done r => ∀ after, calls = done ++ after → ∃ l, r.set.Tracks r.recorded l)
    (fun _ _ => ⟨[], tracks_start⟩) ?_ after split
  intro done r c r' past kept step after split
  obtain ⟨l, tracks⟩ := kept (c :: after) (by simp [split])
  have isNoticed := noticed done c after r (by simp [split]) past ⟨l, tracks⟩ step.1
  obtain ⟨answer, r₁, l', applied, -, tracks'⟩ := Recording.apply_noticed tracks debugging step.1 isNoticed
  have same := step.2
  rw [applied] at same
  exact ⟨l', Option.some.inj same ▸ tracks'⟩

theorem allows_of_run {calls before after : List RangeCall} {r₁ : Recording}
    (run : Run (Recording.Step debugMode) .start calls r) (split : calls = before ++ c :: after)
    (past : Run (Recording.Step debugMode) .start before r₁) : r₁.Allows c := by
  rw [split] at run
  obtain ⟨mid, past', rest⟩ := run.split
  obtain rfl := past.unique step_functional past'
  cases rest with
  | cons step _ => exact step.1

/-- **The overlap check.**  Over a run with debugging on, each call answers right and leaves the
list, the tree and the recorded payloads together if each call is noticed, and where no payload
wraps around only then. -/
theorem overlap_check_iff {calls : List RangeCall} (debugging : debugMode ≠ .none)
    (run : Run (Recording.Step debugMode) .start calls r) :
    ((EachCall debugMode calls fun r c => Noticed r.recorded c) →
      EachCall debugMode calls (Recording.Correct debugMode)) ∧
    ((∀ c ∈ calls, Ordered c) → EachCall debugMode calls (Recording.Correct debugMode) →
      EachCall debugMode calls fun r c => Noticed r.recorded c) := by
  constructor
  · intro noticed before c after r₁ split past
    obtain ⟨l, tracks⟩ := tracks_run debugging
      (fun done c after r split past _ _ => noticed done c after r split past) split past
    obtain ⟨answer, r', l', applied, right, tracks'⟩ := Recording.apply_noticed tracks debugging
      (allows_of_run run split past) (noticed before c after r₁ split past)
    exact ⟨answer, r', applied, right, tracks'.faithful⟩
  · intro ordered correct before c after r₁ split past
    have isOrdered : ∀ {done c after}, calls = done ++ c :: after → Ordered c := fun split =>
      ordered _ (by simp [split])
    obtain ⟨l, tracks⟩ := tracks_run debugging
      (fun done c after r split past ⟨l, tracks⟩ allows => Recording.noticed_of_correct tracks debugging allows
        (isOrdered split) (correct done c after r split past)) split past
    exact Recording.noticed_of_correct tracks debugging (allows_of_run run split past) (isOrdered split)
      (correct before c after r₁ split past)

def someHeap : Extent := ⟨0x1000, 0x1fff, by decide⟩

def somePayloads : List RangeCall :=
  [.add someHeap 0x1000 16 0 1 1, .add someHeap 0x1020 16 1 2 2, .add someHeap 0x1010 16 2 3 3,
    .add someHeap 0x1020 8 3 4 4, .remove 0x1000]

instance (r : Recording) (c : RangeCall) : Decidable (r.Allows c) := by
  cases c <;> unfold Recording.Allows <;> infer_instance

theorem overlap_check_iff_some : ∃ r, Run (Recording.Step .cheap) .start somePayloads r ∧
    (EachCall .cheap somePayloads (Recording.Correct .cheap) ↔
      EachCall .cheap somePayloads fun r c => Noticed r.recorded c) := by
  obtain ⟨r, computed⟩ : ∃ r, somePayloads.foldlM
      (fun r c => if r.Allows c then (r.apply .cheap c).map Prod.snd else none) Recording.start = some r := ⟨_, rfl⟩
  have run : Run (Recording.Step .cheap) .start somePayloads r := Run.of_guarded computed
  have ordered : ∀ c ∈ somePayloads, Ordered c := by
    simp [somePayloads, Ordered]
  obtain ⟨enough, needed⟩ := overlap_check_iff (by decide) run
  exact ⟨r, run, needed ordered, enough⟩

/-- A payload below the only one that is recorded overlaps it, and is accepted. -/
theorem overlap_check_iff_counterexample : ∃ r r', Run (Recording.Step .cheap) .start
      [.add someHeap 0x1040 16 0 1 1] r ∧ r.Allows (.add someHeap 0x1030 32 1 2 2) ∧
    r.apply .cheap (.add someHeap 0x1030 32 1 2 2) = some (.ok (), r') ∧ InHeap someHeap 0x1030 32 ∧
    ¬ Disjoint r.recorded 0x1030 32 ∧ r'.set.list = 2 ∧ r'.set.nextAt 2 = 0 ∧ r'.recorded 0x1040 = some 16 := by
  obtain ⟨r, computed⟩ : ∃ r, [RangeCall.add someHeap 0x1040 16 0 1 1].foldlM
      (fun r c => if r.Allows c then (r.apply .cheap c).map Prod.snd else none) Recording.start = some r := ⟨_, rfl⟩
  have run : Run (Recording.Step .cheap) .start [.add someHeap 0x1040 16 0 1 1] r := Run.of_guarded computed
  cases computed
  refine ⟨_, _, run, by decide +kernel, rfl, ⟨by decide, by decide⟩, fun disjoint => ?_, rfl, rfl, rfl⟩
  have apart := disjoint 0x1040 16 rfl
  revert apart
  decide +kernel

end RangeSet

end SystemsLabs.Driver
