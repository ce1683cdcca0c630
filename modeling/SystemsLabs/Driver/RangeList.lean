/-
# SystemsLabs.Driver.RangeList -- the list of ranges and the tree beside it

`Tracks s m l` is the invariant of `add_range` and `remove_range`: the ranges `l` are linked in
both directions, their payloads follow each other without overlap, the tree binds the address
of each to its range, and together they are the payloads that `m` records.

`Tracks.overlapOf_eq_none` is what the tests against both neighbours are worth.  `Tracks.insert` and
`Tracks.remove` are the two edits: those of `RangeRecords`, with the links.
-/
import SystemsLabs.Driver.RangeRecords

namespace SystemsLabs.Driver

set_option autoImplicit false

open Theory.KeyedLists Theory.PointerPath

namespace RangeSet

variable {s s' : RangeSet} {p q prev next lo hi z : Addr} {index : Int} {l pre post : List Addr}

/-! ## The invariant -/

/-- The payloads that are recorded: the size of the one at each address. -/
abbrev Recorded := Addr → Option UInt64

structure Tracks (s : RangeSet) (m : Recorded) (l : List Addr) : Prop where
  list : TwoWay s.nextAt s.prevAt 0 s.list l
  live : ∀ p, p ∈ s.ranges ↔ p ∈ l
  real : 0 ∉ l
  tree : ∃ contents, s.loTree.Implements contents ∧ s.Binds l contents
  fits : ∀ p ∈ l, s.loAt p ≤ s.hiAt p ∧ (s.hiAt p).toNat < 2 ^ 63
  ordered : l.Pairwise (s.hiAt · < s.loAt ·)
  recorded : ∀ lo size, m lo = some size ↔ ∃ p ∈ l, s.loAt p = lo ∧ s.hiAt p - s.loAt p + 1 = size

variable {m : Recorded}

/-- The size of the payload of a range. -/
def sizeAt (s : RangeSet) (p : Addr) : UInt64 := s.hiAt p - s.loAt p + 1

theorem Tracks.filed (tracks : s.Tracks m l) : s.Filed l where
  live := tracks.live
  real := tracks.real
  tree := tracks.tree
  fits := tracks.fits
  starts := tracks.ordered.imp_of_mem fun a _ less => UInt64.lt_of_le_of_lt (tracks.fits _ a).1 less

theorem Tracks.keyed (tracks : s.Tracks m l) : Keyed s.loAt s.sizeAt l m := tracks.recorded

theorem Tracks.nodup (tracks : s.Tracks m l) : l.Nodup := tracks.list.forward.nodup tracks.real

/-- The search of `add_range`. -/
theorem Tracks.neighbours (tracks : s.Tracks m l) (small : lo.toNat < 2 ^ 63) :
    ∃ pre post tree, l = pre ++ post ∧ s.loTree.treeFindNearest (tkey lo) = some (pre.getLastD 0, tree) ∧
      (∀ q ∈ pre, s.loAt q ≤ lo) ∧ (∀ q ∈ post, lo < s.loAt q) ∧ tree.nodes = s.loTree.nodes ∧
      Tracks { s with loTree := tree } m l := by
  obtain ⟨pre, post, tree, split, found, below, above, nodes, contents, searched⟩ := tracks.filed.neighbours small
  exact ⟨pre, post, tree, split, found, below, above, nodes, { tracks with tree := ⟨contents, searched⟩ }⟩

/-! ## The overlap check -/

/-- The checks against both neighbours are the checks against all payloads. -/
theorem Tracks.overlapOf_eq_none (tracks : s.Tracks m (pre ++ post)) (below : ∀ q ∈ pre, s.loAt q ≤ lo) (hi : Addr) :
    s.overlapOf (pre.getLastD 0) (post.headD 0) lo hi = none ↔
      (∀ q ∈ pre, s.hiAt q < lo) ∧ ∀ q ∈ post, hi < s.loAt q := by
  have ordered := tracks.ordered
  rw [List.pairwise_append] at ordered
  have prev : ¬ (pre.getLastD 0 ≠ 0 ∧ lo ≤ s.hiAt (pre.getLastD 0)) ↔ ∀ q ∈ pre, s.hiAt q < lo := by
    rcases List.eq_nil_or_concat' pre with rfl | ⟨front, r, rfl⟩
    · simp
    · have real : r ≠ 0 := by
        rintro rfl
        exact tracks.real (by simp)
      rw [List.getLastD_concat, not_and, UInt64.not_le]
      constructor
      · intro last q member
        obtain inFront | rfl := List.mem_append.mp member |>.imp_right List.mem_singleton.mp
        · have before := (List.pairwise_append.mp ordered.1).2.2 q inFront r (List.mem_singleton_self r)
          exact UInt64.lt_of_lt_of_le before (below r (by simp))
        · exact last real
      · exact fun all _ => all r (by simp)
  have next : ¬ (post.headD 0 ≠ 0 ∧ s.loAt (post.headD 0) ≤ hi) ↔ ∀ q ∈ post, hi < s.loAt q := by
    cases post with
    | nil => simp
    | cons n post =>
        have real : n ≠ 0 := by
          rintro rfl
          exact tracks.real (by simp)
        rw [List.headD_cons, not_and, UInt64.not_le]
        constructor
        · intro first q member
          obtain rfl | inPost := List.mem_cons.mp member
          · exact first real
          · have after := UInt64.lt_of_le_of_lt (tracks.fits n (by simp)).1
              ((List.pairwise_cons.mp ordered.2.1).1 q inPost)
            exact UInt64.lt_trans (first real) after
        · exact fun all _ => all n (by simp)
  rw [← prev, ← next, overlapOf]
  split
  · next overlap => exact ⟨fun isNull => (by cases isNull), fun both => absurd overlap both.1⟩
  · next clear =>
    split
    · next overlap => exact ⟨fun isNull => (by cases isNull), fun both => absurd overlap both.2⟩
    · next clear' => exact ⟨fun _ => ⟨clear, clear'⟩, fun _ => rfl⟩

/-! ## Insertion -/

theorem getLastD_ne {l : List Addr} {y : Addr} (off : 0 ∉ l) (last : l.getLast? = some y) : l.getLastD 0 = y ∧ y ≠ 0 :=
  ⟨getLastD_of_getLast? last, fun isNull => off (isNull ▸ List.mem_of_getLast? last)⟩

theorem headD_ne {l : List Addr} {y : Addr} (off : 0 ∉ l) (first : l.head? = some y) : l.headD 0 = y ∧ y ≠ 0 :=
  ⟨headD_of_head? first, fun isNull => off (isNull ▸ List.mem_of_head? first)⟩

theorem getLastD_ne_of_ne_nil {l : List Addr} (off : 0 ∉ l) (nonempty : l ≠ []) : l.getLastD 0 ≠ 0 := by
  obtain ⟨front, q, rfl⟩ := (List.eq_nil_or_concat' l).resolve_left nonempty
  rw [List.getLastD_concat]
  rintro rfl
  exact off (by simp)

/-- The links once a range is between its neighbours. -/
theorem Tracks.link (tracks : s.Tracks m (pre ++ post)) (fresh : p ∉ s.ranges)
    (entered : Entered s s' (pre.getLastD 0) (post.headD 0) lo hi index p) :
    TwoWay s'.nextAt s'.prevAt 0 s'.list (pre ++ p :: post) := by
  have others : ∀ q ∈ pre ++ post, q ≠ p := by
    rintro q member rfl
    exact fresh ((tracks.live q).mpr member)
  have offPre : 0 ∉ pre := fun member => tracks.real (List.mem_append_left _ member)
  have offPost : 0 ∉ post := fun member => tracks.real (List.mem_append_right _ member)
  apply tracks.list.insert tracks.nodup
  · rw [entered.nexts, if_neg, if_pos rfl]
    exact fun both => others _ (List.mem_append_left _ (getLastD_mem both.2)) both.1.symm
  · rw [entered.prevs, if_neg, if_pos rfl]
    exact fun both => others _ (List.mem_append_right _ (headD_mem both.2)) both.1.symm
  · rintro rfl
    rw [entered.list]
    rfl
  · intro nonempty
    rw [entered.list, if_neg (getLastD_ne_of_ne_nil offPre nonempty)]
  · intro y last
    obtain ⟨isLast, real⟩ := getLastD_ne offPre last
    rw [entered.nexts, isLast, if_pos ⟨rfl, real⟩]
  · intro y first
    obtain ⟨isFirst, real⟩ := headD_ne offPost first
    rw [entered.prevs, isFirst, if_pos ⟨rfl, real⟩]
  · intro y member notLast
    rw [entered.nexts, if_neg fun both => notLast (getLast?_of_getLastD both.1 both.2), if_neg (others y member)]
  · intro y member notFirst
    rw [entered.prevs, if_neg fun both => notFirst (head?_of_headD both.1 both.2), if_neg (others y member)]

/-- **A payload between its neighbours** is entered in the list and in the tree. -/
theorem Tracks.insert (tracks : s.Tracks m (pre ++ post)) (fit : lo ≤ hi) (small : hi.toNat < 2 ^ 63)
    (below : ∀ q ∈ pre, s.hiAt q < lo) (above : ∀ q ∈ post, hi < s.loAt q) (realP : p ≠ 0) (freshP : p ∉ s.ranges)
    (realZ : z ≠ 0) (freshZ : z ∉ s.loTree.nodes) (index : Int) :
    ∃ s', s.insertRange (pre.getLastD 0) (post.headD 0) lo hi index p z = some s' ∧
      s'.Tracks (Function.update m lo (some (hi - lo + 1))) (pre ++ p :: post) := by
  have before : ∀ q ∈ pre, s.loAt q < lo := fun q inPre =>
    UInt64.lt_of_le_of_lt (tracks.fits q (List.mem_append_left _ inPre)).1 (below q inPre)
  have after : ∀ q ∈ post, lo < s.loAt q := fun q inPost => UInt64.lt_of_le_of_lt fit (above q inPost)
  obtain ⟨s', step, entered, filed⟩ := tracks.filed.insert fit small before after realP freshP realZ freshZ index
    (fun real => (tracks.live _).mpr (List.mem_append_left _ (getLastD_mem real)))
    (fun real => (tracks.live _).mpr (List.mem_append_right _ (headD_mem real)))
  have old : ∀ q ∈ pre ++ post, q ≠ p := by
    rintro q member rfl
    exact freshP ((tracks.live q).mpr member)
  obtain ⟨loP, hiP, -⟩ := entered.new
  have loOld : ∀ q ∈ pre ++ post, s'.loAt q = s.loAt q := fun q member => (entered.others q (old q member)).1
  have hiOld : ∀ q ∈ pre ++ post, s'.hiAt q = s.hiAt q := fun q member => (entered.others q (old q member)).2.1
  have sizeOld : ∀ q ∈ pre ++ post, s'.sizeAt q = s.sizeAt q := fun q member => by
    rw [sizeAt, loOld q member, hiOld q member, sizeAt]
  have keyed := tracks.keyed.insert (p := p) loOld sizeOld (by
    rw [loP]
    rintro q member rfl
    obtain inPre | inPost := List.mem_append.mp member
    · exact UInt64.lt_irrefl _ (before q inPre)
    · exact UInt64.lt_irrefl _ (after q inPost))
  rw [sizeAt, loP, hiP] at keyed
  refine ⟨s', step, tracks.link freshP entered, filed.live, filed.real, filed.tree, filed.fits, ?_, keyed⟩
  have ordered : (pre ++ post).Pairwise (s'.hiAt · < s'.loAt ·) :=
    tracks.ordered.imp_of_mem fun a b less => by rwa [hiOld _ a, loOld _ b]
  rw [List.pairwise_append] at ordered ⊢
  refine ⟨ordered.1, List.pairwise_cons.mpr ⟨fun q inPost => ?_, ordered.2.1⟩, fun q inPre u member => ?_⟩
  · rw [hiP, loOld q (List.mem_append_right _ inPost)]
    exact above q inPost
  · obtain rfl | inPost := List.mem_cons.mp member
    · rw [hiOld q (List.mem_append_left _ inPre), loP]
      exact below q inPre
    · exact ordered.2.2 q inPre u inPost

/-! ## Removal -/

/-- The links once a range has left the list. -/
theorem Tracks.unlink (tracks : s.Tracks m (pre ++ p :: post)) (dropped : Dropped s s' p) :
    TwoWay s'.nextAt s'.prevAt 0 s'.list (pre ++ post) := by
  have others := ne_of_nodup_middle tracks.nodup
  have offPre : 0 ∉ pre := fun member => tracks.real (List.mem_append_left _ member)
  have offPost : 0 ∉ post := fun member => tracks.real (List.mem_append_right _ (List.mem_cons_of_mem _ member))
  obtain ⟨isNext, isPrev⟩ := tracks.list.links
  apply tracks.list.unlink tracks.nodup
  · rintro rfl
    rw [dropped.list, isPrev, isNext]
    rfl
  · intro nonempty
    rw [dropped.list, isPrev, if_neg (getLastD_ne_of_ne_nil offPre nonempty)]
  · intro y last
    obtain ⟨isLast, real⟩ := getLastD_ne offPre last
    rw [dropped.nexts y (others y (List.mem_append_left _ (List.mem_of_getLast? last))), isPrev, isLast, if_pos ⟨rfl, real⟩,
      isNext]
  · intro y first
    obtain ⟨isFirst, real⟩ := headD_ne offPost first
    rw [dropped.prevs y (others y (List.mem_append_right _ (List.mem_of_head? first))), isNext, isFirst, if_pos ⟨rfl, real⟩,
      isPrev]
  · intro y member notLast
    rw [dropped.nexts y (others y member), isPrev, if_neg fun both => notLast (getLast?_of_getLastD both.1 both.2)]
  · intro y member notFirst
    rw [dropped.prevs y (others y member), isNext, if_neg fun both => notFirst (head?_of_headD both.1 both.2)]

/-- **The range at an address** leaves the list and the tree. -/
theorem Tracks.remove (tracks : s.Tracks m l) (lo : Addr) :
    ∃ s' l', s.removeRange lo = some s' ∧ s'.Tracks (Function.update m lo none) l' := by
  have ends : ∀ p ∈ l, (s.prevAt p ≠ 0 → s.prevAt p ∈ l) ∧ (s.nextAt p ≠ 0 → s.nextAt p ∈ l) := by
    intro p member
    obtain ⟨pre, post, rfl⟩ := List.append_of_mem member
    obtain ⟨isNext, isPrev⟩ := tracks.list.links
    rw [isNext, isPrev]
    exact ⟨fun real => List.mem_append_left _ (getLastD_mem real),
      fun real => List.mem_append_right _ (List.mem_cons_of_mem _ (headD_mem real))⟩
  obtain ⟨tree, step, filed, absent⟩ | ⟨pre, p, post, s', rfl, rfl, apart, step, dropped, filed⟩ :=
    tracks.filed.remove lo (fun p member => (ends p member).1) fun p member => (ends p member).2
  · refine ⟨_, l, step, ?_⟩
    rw [← tracks.keyed.eq_none absent, Function.update_eq_self]
    exact { tracks with tree := filed.tree }
  · have others := ne_of_nodup_middle tracks.nodup
    have loSame : ∀ q ∈ pre ++ post, s'.loAt q = s.loAt q := fun q member => (dropped.others q (others q member)).1
    have hiSame : ∀ q ∈ pre ++ post, s'.hiAt q = s.hiAt q := fun q member => (dropped.others q (others q member)).2.1
    have sizeSame : ∀ q ∈ pre ++ post, s'.sizeAt q = s.sizeAt q := fun q member => by
      rw [sizeAt, loSame q member, hiSame q member, sizeAt]
    refine ⟨s', pre ++ post, step, tracks.unlink dropped, filed.live, filed.real, filed.tree, filed.fits, ?_,
      tracks.keyed.erase loSame sizeSame apart⟩
    have sublist : (pre ++ post).Sublist (pre ++ p :: post) := (List.sublist_cons_self p post).append_left pre
    refine (tracks.ordered.sublist sublist).imp_of_mem fun a b less => ?_
    rwa [loSame _ b, hiSame _ a]

end RangeSet

end SystemsLabs.Driver
