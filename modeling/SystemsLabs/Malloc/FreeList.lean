/-
# SystemsLabs.Malloc.FreeList -- what `pop` and `push` do to one free list

A segregated list is a doubly linked list through the words 8 and 16 bytes into its
blocks; a bucket of minimum-size blocks is singly linked through the word 8 bytes
in.  The many branches of `pop` come down to one effect, the removal of the block
from wherever it stands (`pop_seg`, `pop_min`), and `push` to one insertion at the
head (`push_seg`, `push_min`).  Every other byte of the heap keeps its value.
-/
import Mathlib.Data.Finset.Card
import Mathlib.Data.Finset.Range
import Mathlib.Data.List.Nodup
import SystemsLabs.Malloc.Allocator
import SystemsLabs.Theory.PointerPath

namespace SystemsLabs.Malloc

open SystemsLabs.Theory.ByteMemory
open SystemsLabs.Theory.PointerPath

set_option autoImplicit false

/-- Two nodes whose link words do not overlap. -/
def Apart (x y : Nat) : Prop := x + 16 ≤ y ∨ y + 16 ≤ x

namespace Heap

variable {h : Heap} {x y v : Nat}

/-! ## Link words -/

theorem word_lt (h : Heap) (p : Nat) : h.word p < wordMod := read64_lt h.mem p

theorem word_setWord {p : Nat} (fits : v < wordMod) : (h.setWord p v).word p = v :=
  read64_write64 h.mem fits

theorem word_setWord_ne {p q : Nat} (apart : q + 8 ≤ p ∨ p + 8 ≤ q) :
    (h.setWord p v).word q = h.word q :=
  read64_write64_disjoint h.mem apart

theorem word_congr {h' : Heap} {p : Nat} (same : ∀ a, p ≤ a → a < p + 8 → h'.mem a = h.mem a) :
    h'.word p = h.word p := read64_congr same

theorem setWord_outside {p a : Nat} (out : a < p ∨ p + 8 ≤ a) : (h.setWord p v).mem a = h.mem a :=
  write64_outside h.mem out

theorem next_setNext_self (fits : v < wordMod) : (h.setNext x v).next x = v := word_setWord fits

theorem next_setNext (apart : Apart x y) : (h.setNext x v).next y = h.next y :=
  word_setWord_ne (by simp only [Apart, dsize, wsize] at *; omega)

theorem prev_setNext (apart : x = y ∨ Apart x y) : (h.setNext x v).prev y = h.prev y :=
  word_setWord_ne (by simp only [Apart, dsize, wsize] at *; omega)

theorem prev_setPrev_self (fits : v < wordMod) : (h.setPrev x v).prev x = v := word_setWord fits

theorem prev_setPrev (apart : Apart x y) : (h.setPrev x v).prev y = h.prev y :=
  word_setWord_ne (by simp only [Apart, wsize] at *; omega)

theorem next_setPrev (apart : x = y ∨ Apart x y) : (h.setPrev x v).next y = h.next y :=
  word_setWord_ne (by simp only [Apart, dsize, wsize] at *; omega)

theorem minNext_setMinNext_self (fits : v < wordMod) : (h.setMinNext x v).minNext x = v :=
  word_setWord fits

theorem minNext_setMinNext (apart : Apart x y) : (h.setMinNext x v).minNext y = h.minNext y :=
  word_setWord_ne (by simp only [Apart, wsize] at *; omega)

@[simp] theorem next_setSegList (i : Fin numClasses) : (h.setSegList i v).next = h.next := rfl

@[simp] theorem prev_setSegList (i : Fin numClasses) : (h.setSegList i v).prev = h.prev := rfl

@[simp] theorem segList_setSegList (i : Fin numClasses) : (h.setSegList i v).segList i = v :=
  Function.update_self ..

@[simp] theorem minList_setMinList (i : Fin numMinLists) : (h.setMinList i v).minList i = v :=
  Function.update_self ..

@[simp] theorem minNext_setMinList (i : Fin numMinLists) : (h.setMinList i v).minNext = h.minNext := rfl

/-! ## The effect of a list operation -/

/-- Only bytes inside the link areas of `nodes`, `width` bytes from 8 on, and the list
heads may differ. -/
structure Relinked (h h' : Heap) (nodes : List Nat) (width : Nat) : Prop where
  mem : ∀ a, (∀ y ∈ nodes, a < y + 8 ∨ y + 8 + width ≤ a) → h'.mem a = h.mem a
  brk : h'.brk = h.brk
  maxAddr : h'.maxAddr = h.maxAddr
  heapStart : h'.heapStart = h.heapStart
  heapEnd : h'.heapEnd = h.heapEnd

theorem Relinked.refl (h : Heap) (nodes : List Nat) (width : Nat) : Relinked h h nodes width :=
  ⟨fun _ _ => rfl, rfl, rfl, rfl, rfl⟩

theorem Relinked.trans {h₁ h₂ h₃ : Heap} {nodes : List Nat} {width : Nat}
    (first : Relinked h₁ h₂ nodes width) (second : Relinked h₂ h₃ nodes width) :
    Relinked h₁ h₃ nodes width where
  mem a off := (second.mem a off).trans (first.mem a off)
  brk := second.brk.trans first.brk
  maxAddr := second.maxAddr.trans first.maxAddr
  heapStart := second.heapStart.trans first.heapStart
  heapEnd := second.heapEnd.trans first.heapEnd

theorem relinked_setNext (h : Heap) (v : Nat) {nodes : List Nat} (member : x ∈ nodes) :
    Relinked h (h.setNext x v) nodes 16 where
  mem a off := setWord_outside (by have := off x member; simp only [dsize, wsize]; omega)
  brk := rfl
  maxAddr := rfl
  heapStart := rfl
  heapEnd := rfl

theorem relinked_setPrev (h : Heap) (v : Nat) {nodes : List Nat} (member : x ∈ nodes) :
    Relinked h (h.setPrev x v) nodes 16 where
  mem a off := setWord_outside (by have := off x member; simp only [wsize]; omega)
  brk := rfl
  maxAddr := rfl
  heapStart := rfl
  heapEnd := rfl

theorem relinked_setMinNext (h : Heap) (v : Nat) {nodes : List Nat} (member : x ∈ nodes) :
    Relinked h (h.setMinNext x v) nodes 8 where
  mem a off := setWord_outside (by have := off x member; simp only [wsize]; omega)
  brk := rfl
  maxAddr := rfl
  heapStart := rfl
  heapEnd := rfl

theorem relinked_setSegList (h : Heap) (i : Fin numClasses) (v : Nat) (nodes : List Nat) (width : Nat) :
    Relinked h (h.setSegList i v) nodes width :=
  ⟨fun _ _ => rfl, rfl, rfl, rfl, rfl⟩

theorem relinked_setMinList (h : Heap) (i : Fin numMinLists) (v : Nat) (nodes : List Nat) (width : Nat) :
    Relinked h (h.setMinList i v) nodes width :=
  ⟨fun _ _ => rfl, rfl, rfl, rfl, rfl⟩

/-! ## Removing from a segregated list -/

section PopSeg

variable {i : Fin numClasses} {pre post : List Nat}

/-- The links of a free list whose nodes are in memory: no node is null, and the link
words of different nodes are apart. -/
structure Placed (nodes : List Nat) : Prop where
  nonnull : 0 ∉ nodes
  apart : ∀ y ∈ nodes, ∀ z ∈ nodes, y ≠ z → Apart y z
  fits : ∀ y ∈ nodes, y < wordMod

/-- A node of a list lies apart from every other node, whatever way the list is split at it. -/
theorem Placed.apart_split {nodes : List Nat} (placed : Placed nodes) (shape : nodes = pre ++ x :: post)
    (nodup : nodes.Nodup) : ∀ y ∈ pre ++ post, Apart x y := by
  subst shape
  intro y member
  refine placed.apart x (by simp) y ?_ (ne_of_nodup_middle nodup y member).symm
  rw [List.mem_append] at member ⊢
  exact member.imp_right (List.mem_cons_of_mem _)

theorem Placed.apart_cons {l : List Nat} (placed : Placed (x :: l)) (nodup : (x :: l).Nodup) :
    ∀ y ∈ l, Apart x y := fun y member =>
  placed.apart x (List.mem_cons_self ..) y (List.mem_cons_of_mem _ member)
    (fun same => (List.nodup_cons.mp nodup).1 (same ▸ member))

theorem Placed.length_le {nodes : List Nat} (placed : Placed nodes) (nodup : nodes.Nodup) :
    nodes.length ≤ wordMod := by
  have inside : nodes.toFinset ⊆ Finset.range wordMod := fun y member =>
    Finset.mem_range.mpr (placed.fits y (List.mem_toFinset.mp member))
  have := Finset.card_le_card inside
  rwa [List.toFinset_card_of_nodup nodup, Finset.card_range] at this

/-- `pop` on the first node of its list. -/
theorem pop_first (notMin : h.getSize x ≠ minBlockSize) (index : getIndex (h.getSize x) = i)
    (root : h.segList i = x) (noPrev : h.prev x = 0) :
    h.pop x = some (if h.next x = 0 then h.setSegList i 0
      else ((h.setPrev (h.next x) 0).setNext x 0).setSegList i (h.next x)) := by
  by_cases last : h.next x = 0
  · simp [pop, notMin, index, root, noPrev, last]
  · by_cases two : h.next (h.next x) = 0 <;>
      simp [pop, notMin, index, root, noPrev, last, two]

/-- `pop` on any later node of its list. -/
theorem pop_later (notMin : h.getSize x ≠ minBlockSize) (index : getIndex (h.getSize x) = i)
    (notRoot : h.segList i ≠ x) (hasPrev : h.prev x ≠ 0) :
    h.pop x = some (if h.next x = 0 then (h.setNext (h.prev x) 0).setPrev x 0
      else (((h.setNext (h.prev x) (h.next x)).setPrev (h.next x) (h.prev x)).setNext x 0).setPrev x 0) := by
  have notRoot' : x ≠ h.segList i := Ne.symm notRoot
  by_cases last : h.next x = 0
  · by_cases two : h.prev (h.prev x) = 0 <;>
      simp [pop, notMin, index, notRoot', hasPrev, last, two]
  · simp [pop, notMin, index, notRoot', hasPrev, last]

/-- The head of a list with a successor is taken out. -/
theorem unlink_first {n : Nat} (list : TwoWay h.next h.prev 0 (h.segList i) (x :: n :: post))
    (placed : Placed (x :: n :: post)) (nodup : (x :: n :: post).Nodup) :
    let h' := ((h.setPrev n 0).setNext x 0).setSegList i n
    TwoWay h'.next h'.prev 0 (h'.segList i) (n :: post) := by
  have whole : TwoWay h.next h.prev 0 (h.segList i) ([] ++ x :: n :: post) := list
  obtain ⟨nextX, prevX⟩ := whole.links
  have apartX := placed.apart_cons nodup
  have apartN : ∀ y ∈ [x] ++ post, Apart n y := placed.apart_split rfl nodup
  intro h'
  refine whole.unlink nodup ?_ ?_ ?_ ?_ ?_ ?_
  · intro _
    exact (segList_setSegList i).trans nextX.symm
  · intro impossible
    exact absurd rfl impossible
  · intro p isEmpty
    simp at isEmpty
  · intro n' first
    obtain rfl : n = n' := by simpa using first
    show ((h.setPrev n 0).setNext x 0).prev n = h.prev x
    rw [prev_setNext (Or.inr (apartX n (by simp))), prev_setPrev_self wordMod_pos, prevX,
      List.getLastD_nil]
  · intro y member _
    show ((h.setPrev n 0).setNext x 0).next y = h.next y
    rw [next_setNext (apartX y member), next_setPrev]
    rcases List.mem_cons.mp member with rfl | inPost
    · exact Or.inl rfl
    · exact Or.inr (apartN y (List.mem_append_right _ inPost))
  · intro y member notFirst
    show ((h.setPrev n 0).setNext x 0).prev y = h.prev y
    rw [prev_setNext (Or.inr (apartX y member))]
    rcases List.mem_cons.mp member with rfl | inPost
    · exact absurd rfl notFirst
    · exact prev_setPrev (apartN y (List.mem_append_right _ inPost))

/-- The last node of a list is taken out, its predecessor ending the list. -/
theorem unlink_last {p : Nat} (list : TwoWay h.next h.prev 0 (h.segList i) (pre ++ [p] ++ [x]))
    (placed : Placed (pre ++ [p] ++ [x])) (nodup : (pre ++ [p] ++ [x]).Nodup) :
    let h' := (h.setNext p 0).setPrev x 0
    TwoWay h'.next h'.prev 0 (h'.segList i) (pre ++ [p]) := by
  obtain ⟨nextX, -⟩ := list.links
  have apartX := placed.apart_split rfl nodup
  have apartP : ∀ y ∈ pre ++ [x], Apart p y := placed.apart_split (by simp) nodup
  intro h'
  rw [← List.append_nil (pre ++ [p])]
  refine list.unlink nodup ?_ (fun _ => rfl) ?_ ?_ ?_ ?_
  · intro empty
    simp at empty
  · intro p' last
    obtain rfl : p = p' := by simpa using last
    show ((h.setNext p 0).setPrev x 0).next p = h.next x
    rw [next_setPrev (Or.inr (apartX p (by simp))), next_setNext_self wordMod_pos, nextX,
      List.headD_nil]
  · intro n isEmpty
    simp at isEmpty
  · intro y member notLast
    show ((h.setNext p 0).setPrev x 0).next y = h.next y
    rw [next_setPrev (Or.inr (apartX y member))]
    simp only [List.append_nil, List.mem_append, List.mem_singleton] at member
    rcases member with inPre | rfl
    · exact next_setNext (apartP y (by simp [inPre]))
    · simp at notLast
  · intro y member _
    show ((h.setNext p 0).setPrev x 0).prev y = h.prev y
    rw [prev_setPrev (apartX y member)]
    simp only [List.append_nil, List.mem_append, List.mem_singleton] at member
    rcases member with inPre | rfl
    · exact prev_setNext (Or.inr (apartP y (by simp [inPre])))
    · exact prev_setNext (Or.inl rfl)

/-- A node with two neighbours is taken out, the neighbours being linked to each other. -/
theorem unlink_between {p n : Nat}
    (list : TwoWay h.next h.prev 0 (h.segList i) (pre ++ [p] ++ x :: n :: post))
    (placed : Placed (pre ++ [p] ++ x :: n :: post))
    (nodup : (pre ++ [p] ++ x :: n :: post).Nodup) :
    let h' := (((h.setNext p n).setPrev n p).setNext x 0).setPrev x 0
    TwoWay h'.next h'.prev 0 (h'.segList i) (pre ++ [p] ++ n :: post) := by
  obtain ⟨nextX, prevX⟩ := list.links
  have apartX := placed.apart_split rfl nodup
  have apartP : ∀ y ∈ pre ++ x :: n :: post, Apart p y := placed.apart_split (by simp) nodup
  have apartN : ∀ y ∈ pre ++ [p, x] ++ post, Apart n y := placed.apart_split (by simp) nodup
  have apartPN : Apart p n := apartP n (by simp)
  intro h'
  refine list.unlink nodup ?_ (fun _ => rfl) ?_ ?_ ?_ ?_
  · intro empty
    simp at empty
  · intro p' last
    obtain rfl : p = p' := by simpa using last
    have toX := apartX p (by simp)
    show ((((h.setNext p n).setPrev n p).setNext x 0).setPrev x 0).next p = h.next x
    rw [next_setPrev (Or.inr toX), next_setNext toX, next_setPrev (Or.inr apartPN.symm),
      next_setNext_self (placed.fits n (by simp)), nextX, List.headD_cons]
  · intro n' first
    obtain rfl : n = n' := by simpa using first
    have toX := apartX n (by simp)
    show ((((h.setNext p n).setPrev n p).setNext x 0).setPrev x 0).prev n = h.prev x
    rw [prev_setPrev toX, prev_setNext (Or.inr toX), prev_setPrev_self (placed.fits p (by simp)),
      prevX]
    simp [List.getLastD_eq_getLast?]
  · intro y member notLast
    have toX := apartX y member
    show ((((h.setNext p n).setPrev n p).setNext x 0).setPrev x 0).next y = h.next y
    rw [next_setPrev (Or.inr toX), next_setNext toX]
    simp only [List.mem_append, List.mem_cons, List.not_mem_nil, or_false] at member
    rcases member with (inPre | rfl) | rfl | inPost
    · rw [next_setPrev (Or.inr (apartN y (by simp [inPre]))),
        next_setNext (apartP y (by simp [inPre]))]
    · simp at notLast
    · rw [next_setPrev (Or.inl rfl), next_setNext apartPN]
    · rw [next_setPrev (Or.inr (apartN y (by simp [inPost]))),
        next_setNext (apartP y (by simp [inPost]))]
  · intro y member notFirst
    have toX := apartX y member
    show ((((h.setNext p n).setPrev n p).setNext x 0).setPrev x 0).prev y = h.prev y
    rw [prev_setPrev toX, prev_setNext (Or.inr toX)]
    simp only [List.mem_append, List.mem_cons, List.not_mem_nil, or_false] at member
    rcases member with (inPre | rfl) | rfl | inPost
    · rw [prev_setPrev (apartN y (by simp [inPre])),
        prev_setNext (Or.inr (apartP y (by simp [inPre])))]
    · rw [prev_setPrev apartPN.symm, prev_setNext (Or.inl rfl)]
    · simp at notFirst
    · rw [prev_setPrev (apartN y (by simp [inPost])),
        prev_setNext (Or.inr (apartP y (by simp [inPost])))]

/-- **`pop` removes the block from its segregated list**, wherever it stands in it. -/
theorem pop_seg (notMin : h.getSize x ≠ minBlockSize) (index : getIndex (h.getSize x) = i)
    (list : TwoWay h.next h.prev 0 (h.segList i) (pre ++ x :: post))
    (placed : Placed (pre ++ x :: post)) :
    ∃ h', h.pop x = some h' ∧ TwoWay h'.next h'.prev 0 (h'.segList i) (pre ++ post) ∧
      Relinked h h' (pre ++ x :: post) 16 ∧ h'.minList = h.minList ∧
      ∀ j, j ≠ i → h'.segList j = h.segList j := by
  have nodup : (pre ++ x :: post).Nodup := list.forward.nodup placed.nonnull
  obtain ⟨nextX, prevX⟩ := list.links
  have memX : x ∈ pre ++ x :: post := by simp
  rcases List.eq_nil_or_concat' pre with rfl | ⟨front, p, rfl⟩
  · -- the block is the head of its list
    rw [pop_first notMin index list.forward.1 prevX]
    cases post with
    | nil =>
        rw [List.headD_nil] at nextX
        rw [if_pos nextX]
        refine ⟨_, rfl, ⟨?_, ?_⟩, relinked_setSegList .., rfl, fun j ne => Function.update_of_ne ne ..⟩
        · simp
        · simp
    | cons n rest =>
        rw [List.headD_cons] at nextX
        have memN : n ∈ [] ++ x :: n :: rest := by simp
        have nonnullN : n ≠ 0 := fun null => placed.nonnull (null ▸ memN)
        rw [nextX, if_neg nonnullN]
        refine ⟨_, rfl, unlink_first list placed nodup, ?_, rfl, fun j ne => Function.update_of_ne ne ..⟩
        exact ((relinked_setPrev h 0 memN).trans (relinked_setNext _ 0 memX)).trans
          (relinked_setSegList ..)
  · -- the block has a predecessor
    have memP : p ∈ front ++ [p] ++ x :: post := by simp
    have nonnullP : p ≠ 0 := fun null => placed.nonnull (null ▸ memP)
    have prevX : h.prev x = p := by simpa [List.getLastD_eq_getLast?] using prevX
    have notRoot : h.segList i ≠ x := list.forward.head_ne nodup (by simp)
    rw [pop_later notMin index notRoot (prevX ▸ nonnullP), prevX]
    cases post with
    | nil =>
        rw [List.headD_nil] at nextX
        rw [if_pos nextX, List.append_nil]
        refine ⟨_, rfl, unlink_last list placed nodup, ?_, rfl, fun _ _ => rfl⟩
        exact (relinked_setNext h 0 memP).trans (relinked_setPrev _ 0 memX)
    | cons n rest =>
        rw [List.headD_cons] at nextX
        have memN : n ∈ front ++ [p] ++ x :: n :: rest := by simp
        have nonnullN : n ≠ 0 := fun null => placed.nonnull (null ▸ memN)
        rw [nextX, if_neg nonnullN]
        refine ⟨_, rfl, unlink_between list placed nodup, ?_, rfl, fun _ _ => rfl⟩
        exact (((relinked_setNext h n memP).trans (relinked_setPrev _ p memN)).trans
          (relinked_setNext _ 0 memX)).trans (relinked_setPrev _ 0 memX)

end PopSeg

/-! ## Removing from a bucket -/

section PopMin

variable {pre post : List Nat}

/-- The search of `pop_min_block` stops at the block, with its predecessor at hand. -/
theorem seekMinBlock_found {fuel last root : Nat} (path : Path h.minNext root (pre ++ x :: post) 0)
    (off : x ∉ pre) (nonnull : 0 ∉ pre) (enough : pre.length < fuel) :
    h.seekMinBlock x fuel last root = some (pre.getLastD last, x) := by
  induction pre generalizing fuel last root with
  | nil =>
      obtain ⟨rfl, -⟩ := path
      cases fuel with
      | zero => simp at enough
      | succ fuel => simp [seekMinBlock]
  | cons y pre ih =>
      obtain ⟨rfl, rest⟩ := path
      cases fuel with
      | zero => simp at enough
      | succ fuel =>
          have notX : root ≠ x := fun e => off (e ▸ List.mem_cons_self ..)
          have notNull : root ≠ 0 := fun e => nonnull (e ▸ List.mem_cons_self ..)
          rw [seekMinBlock, if_neg notX, if_neg notNull,
            ih rest (fun m => off (List.mem_cons_of_mem _ m))
              (fun m => nonnull (List.mem_cons_of_mem _ m)) (by simpa using enough)]
          simp [List.getLastD_eq_getLast?, List.getLast?_cons]

/-- `pop` on the first block of its bucket. -/
theorem pop_min_first (isMin : h.getSize x = minBlockSize) (root : h.minList (minIndex x) = x) :
    h.pop x = some (if h.minNext x = 0 then h.setMinList (minIndex x) 0
      else (h.setMinList (minIndex x) (h.minNext x)).setMinNext x 0) := by
  rw [pop, if_pos isMin, popMinBlock]
  by_cases last : h.minNext x = 0 <;> simp [root, last]

/-- `pop` on any later block of its bucket.  The write of the branch "ele at end" is
overwritten at once. -/
theorem pop_min_later {p : Nat} (isMin : h.getSize x = minBlockSize)
    (notRoot : h.minList (minIndex x) ≠ x)
    (found : h.seekMinBlock x wordMod (h.minList (minIndex x)) (h.minList (minIndex x)) = some (p, x)) :
    ∃ g, (g = h.setMinNext p 0 ∨ g = h) ∧
      h.pop x = some ((g.setMinNext p (g.minNext x)).setMinNext x 0) := by
  have notRoot' : x ≠ h.minList (minIndex x) := Ne.symm notRoot
  rw [pop, if_pos isMin, popMinBlock, if_neg (fun c => notRoot' c.1), if_neg (fun c => notRoot' c.1),
    found]
  by_cases last : h.minNext x = 0
  · refine ⟨h.setMinNext p 0, Or.inl rfl, ?_⟩
    simp [notRoot', last]
  · refine ⟨h, Or.inr rfl, ?_⟩
    simp [last]

/-- The first block of a bucket is taken out. -/
theorem unlink_min_first (path : Path h.minNext (h.minList (minIndex x)) (x :: post) 0)
    (apartX : ∀ y ∈ post, Apart x y) :
    let h' := (h.setMinList (minIndex x) (h.minNext x)).setMinNext x 0
    Path h'.minNext (h'.minList (minIndex x)) post 0 := by
  intro h'
  have head : h'.minList (minIndex x) = h.minNext x := minList_setMinList _
  rw [head]
  exact path.2.congr fun y member => minNext_setMinNext (apartX y member)

/-- A later block of a bucket is taken out: its predecessor takes over its link. -/
theorem unlink_min_later {g : Heap} {p : Nat}
    (path : Path h.minNext (h.minList (minIndex x)) (pre ++ [p] ++ x :: post) 0)
    (placed : Placed (pre ++ [p] ++ x :: post)) (nodup : (pre ++ [p] ++ x :: post).Nodup)
    (sameHead : g.minList (minIndex x) = h.minList (minIndex x))
    (same : ∀ y, Apart p y → g.minNext y = h.minNext y) :
    let h' := (g.setMinNext p (g.minNext x)).setMinNext x 0
    Path h'.minNext (h'.minList (minIndex x)) (pre ++ [p] ++ post) 0 := by
  have apartX := placed.apart_split rfl nodup
  have apartP : ∀ y ∈ pre ++ x :: post, Apart p y := placed.apart_split (by simp) nodup
  have toX : Apart p x := apartP x (by simp)
  have fits : g.minNext x < wordMod := word_lt ..
  intro h'
  refine path.unlink nodup (by simp) ?_ ?_ ?_
  · intro _
    exact sameHead
  · intro p' last
    obtain rfl : p = p' := by simpa using last
    show ((g.setMinNext p (g.minNext x)).setMinNext x 0).minNext p = h.minNext x
    rw [minNext_setMinNext toX.symm, minNext_setMinNext_self fits, same x toX]
  · intro y member notLast
    have toP : Apart p y := by
      apply apartP y
      simp only [List.mem_append, List.mem_cons, List.not_mem_nil, or_false] at member ⊢
      rcases member with (inPre | rfl) | inPost
      · exact Or.inl inPre
      · simp at notLast
      · exact Or.inr (Or.inr inPost)
    show ((g.setMinNext p (g.minNext x)).setMinNext x 0).minNext y = h.minNext y
    rw [minNext_setMinNext (apartX y member), minNext_setMinNext toP, same y toP]

/-- **`pop` removes a block of minimum size from its bucket.** -/
theorem pop_min (isMin : h.getSize x = minBlockSize)
    (path : Path h.minNext (h.minList (minIndex x)) (pre ++ x :: post) 0)
    (placed : Placed (pre ++ x :: post)) :
    ∃ h', h.pop x = some h' ∧ Path h'.minNext (h'.minList (minIndex x)) (pre ++ post) 0 ∧
      Relinked h h' (pre ++ x :: post) 8 ∧ h'.segList = h.segList ∧
      ∀ j, j ≠ minIndex x → h'.minList j = h.minList j := by
  have nodup : (pre ++ x :: post).Nodup := path.nodup placed.nonnull
  have memX : x ∈ pre ++ x :: post := by simp
  rcases List.eq_nil_or_concat' pre with rfl | ⟨front, p, rfl⟩
  · -- the block is the head of its bucket
    have unlinked := unlink_min_first path (placed.apart_cons nodup)
    rw [pop_min_first isMin path.1]
    by_cases last : h.minNext x = 0
    · rw [if_pos last]
      refine ⟨_, rfl, ?_, relinked_setMinList .., rfl, fun j ne => Function.update_of_ne ne ..⟩
      rw [minList_setMinList, minNext_setMinList]
      exact last ▸ path.2
    · rw [if_neg last]
      exact ⟨_, rfl, unlinked, (relinked_setMinList ..).trans (relinked_setMinNext _ 0 memX), rfl,
        fun j ne => Function.update_of_ne ne ..⟩
  · -- the block has a predecessor, which the search finds
    have memP : p ∈ front ++ [p] ++ x :: post := by simp
    have offX := ne_of_nodup_middle nodup
    have notRoot : h.minList (minIndex x) ≠ x := path.head_ne nodup (by simp)
    have enough : (front ++ [p]).length < wordMod := by
      have := placed.length_le nodup
      simp only [List.length_append, List.length_cons, List.length_nil] at this ⊢
      omega
    have found : h.seekMinBlock x wordMod (h.minList (minIndex x)) (h.minList (minIndex x)) =
        some (p, x) := by
      rw [seekMinBlock_found path (fun m => offX x (List.mem_append_left _ m) rfl)
        (fun m => placed.nonnull (List.mem_append_left _ m)) enough]
      simp [List.getLastD_eq_getLast?]
    obtain ⟨g, written, popped⟩ := pop_min_later isMin notRoot found
    have kept : ∀ y, Apart p y → g.minNext y = h.minNext y := by
      intro y apart
      rcases written with rfl | rfl
      · exact minNext_setMinNext apart
      · rfl
    have relinked : Relinked h g (front ++ [p] ++ x :: post) 8 := by
      rcases written with rfl | rfl
      · exact relinked_setMinNext h 0 memP
      · exact Relinked.refl ..
    have heads : g.minList = h.minList ∧ g.segList = h.segList := by
      rcases written with rfl | rfl <;> exact ⟨rfl, rfl⟩
    exact ⟨_, popped, unlink_min_later path placed nodup (congrFun heads.1 _) kept,
      (relinked.trans (relinked_setMinNext g _ memP)).trans (relinked_setMinNext _ 0 memX),
      heads.2, fun j _ => congrFun heads.1 j⟩

end PopMin

/-! ## Inserting at the head -/

section Push

variable {l : List Nat}

/-- **`push` puts a block larger than the minimum at the head of its segregated list.** -/
theorem push_seg {i : Fin numClasses} (notMin : h.getSize x ≠ minBlockSize)
    (index : getIndex (h.getSize x) = i) (list : TwoWay h.next h.prev 0 (h.segList i) l)
    (placed : Placed (x :: l)) (off : x ∉ l) :
    TwoWay (h.push x).next (h.push x).prev 0 ((h.push x).segList i) (x :: l) ∧
      Relinked h (h.push x) (x :: l) 16 ∧ (h.push x).minList = h.minList ∧
      ∀ j, j ≠ i → (h.push x).segList j = h.segList j := by
  have memX : x ∈ x :: l := List.mem_cons_self ..
  have nodup : (x :: l).Nodup := List.nodup_cons.mpr
    ⟨off, list.forward.nodup fun m => placed.nonnull (List.mem_cons_of_mem _ m)⟩
  have apartX : ∀ y ∈ l, Apart x y := placed.apart_cons nodup
  by_cases empty : h.segList i = 0
  · have pushed : h.push x = ((h.setPrev x 0).setNext x 0).setSegList i x := by
      simp [push, notMin, index, empty]
    rw [pushed]
    refine ⟨?_, ((relinked_setPrev h 0 memX).trans (relinked_setNext _ 0 memX)).trans
      (relinked_setSegList ..), rfl, fun j ne => Function.update_of_ne ne ..⟩
    have isEmpty : l = [] := by
      cases l with
      | nil => rfl
      | cons y l => exact absurd (list.forward.1.symm.trans empty) fun e => placed.nonnull (by simp [e])
    subst isEmpty
    rw [segList_setSegList]
    refine list.push ?_ ?_ (by simp) (by simp) (by simp)
    · rw [next_setSegList, next_setNext_self wordMod_pos, empty]
    · rw [prev_setSegList, prev_setNext (Or.inl rfl), prev_setPrev_self wordMod_pos]
  · obtain ⟨r, rest, rfl⟩ : ∃ r rest, l = r :: rest := by
      cases l with
      | nil => exact absurd list.forward empty
      | cons r rest => exact ⟨r, rest, rfl⟩
    have root : h.segList i = r := list.forward.1
    have memR : r ∈ x :: r :: rest := by simp
    have pushed : h.push x =
        (((h.setPrev r x).setNext x r).setPrev x 0).setSegList i x := by
      simp [push, notMin, index, root, root ▸ empty]
    have apartR : ∀ y ∈ [x] ++ rest, Apart r y := placed.apart_split rfl nodup
    have toR := apartX r (by simp)
    rw [pushed]
    refine ⟨?_, (((relinked_setPrev h x memR).trans (relinked_setNext _ r memX)).trans
      (relinked_setPrev _ 0 memX)).trans (relinked_setSegList ..), rfl,
      fun j ne => Function.update_of_ne ne ..⟩
    rw [segList_setSegList]
    refine list.push ?_ ?_ ?_ ?_ ?_
    · rw [next_setSegList, next_setPrev (Or.inl rfl), next_setNext_self (placed.fits r memR), root]
    · rw [prev_setSegList, prev_setPrev_self wordMod_pos]
    · intro y first
      obtain rfl : r = y := by simpa using first
      rw [prev_setSegList, prev_setPrev toR, prev_setNext (Or.inr toR),
        prev_setPrev_self (placed.fits x memX)]
    · intro y member
      rw [next_setSegList, next_setPrev (Or.inr (apartX y member)), next_setNext (apartX y member)]
      rcases List.mem_cons.mp member with rfl | inRest
      · exact next_setPrev (Or.inl rfl)
      · exact next_setPrev (Or.inr (apartR y (List.mem_append_right _ inRest)))
    · intro y inRest
      have toX := apartX y (List.mem_cons_of_mem _ inRest)
      rw [prev_setSegList, prev_setPrev toX, prev_setNext (Or.inr toX),
        prev_setPrev (apartR y (List.mem_append_right _ inRest))]

/-- **`push` puts a block of minimum size at the head of its bucket.** -/
theorem push_min (isMin : h.getSize x = minBlockSize)
    (path : Path h.minNext (h.minList (minIndex x)) l 0) (placed : Placed (x :: l)) (off : x ∉ l) :
    Path (h.push x).minNext ((h.push x).minList (minIndex x)) (x :: l) 0 ∧
      Relinked h (h.push x) (x :: l) 8 ∧ (h.push x).segList = h.segList ∧
      ∀ j, j ≠ minIndex x → (h.push x).minList j = h.minList j := by
  have memX : x ∈ x :: l := List.mem_cons_self ..
  have nodup : (x :: l).Nodup := List.nodup_cons.mpr
    ⟨off, path.nodup fun m => placed.nonnull (List.mem_cons_of_mem _ m)⟩
  have apartX : ∀ y ∈ l, Apart x y := placed.apart_cons nodup
  -- both branches store the old root as the successor
  have pushed : h.push x =
      (h.setMinNext x (h.minList (minIndex x))).setMinList (minIndex x) x := by
    by_cases empty : h.minList (minIndex x) = 0 <;> simp [push, pushMinBlock, isMin, empty]
  have rootFits : h.minList (minIndex x) < wordMod := by
    have first := path.headD
    cases l with
    | nil => exact first ▸ wordMod_pos
    | cons r rest => exact first ▸ placed.fits r (by simp)
  rw [pushed]
  refine ⟨?_, (relinked_setMinNext h _ memX).trans (relinked_setMinList ..), rfl,
    fun j ne => Function.update_of_ne ne ..⟩
  rw [minList_setMinList, minNext_setMinList]
  exact path.push (minNext_setMinNext_self rootFits) fun y member => minNext_setMinNext (apartX y member)

end Push

end Heap

end SystemsLabs.Malloc
