/-
# SystemsLabs.Malloc.ListFamily -- `pop` and `push` on the whole family of free lists

`Family h lists` is the family of free lists on its own, without the row of blocks around it:
each size class a doubly linked list, each bucket a singly linked one, and no two nodes in
each other's way (`Spread`).  A block selects its list by its size or its address (`binOf`).

`push` puts a block first in the list it selects (`push_family`), `pop` takes one out of it
wherever it stands (`pop_family`), and neither touches another list (`OthersKept`).
-/
import SystemsLabs.Malloc.Blocks

namespace SystemsLabs.Malloc

open SystemsLabs.Theory.ByteMemory

set_option autoImplicit false

/-- The bytes of a node: its header and its link words. -/
def Bin.extent (bin : Bin) : Nat := 8 + bin.width

theorem Bin.le_extent (bin : Bin) : 16 ≤ bin.extent := by
  cases bin
  · exact (by decide : 16 ≤ 8 + 16)
  · exact (by decide : 16 ≤ 8 + 8)

/-- Nodes of lists that are objects in memory: none is null, no two overlap, and none is in
two lists. -/
structure Spread (lists : Bin → List Nat) : Prop where
  nonnull : ∀ bin, 0 ∉ lists bin
  fits : ∀ bin, ∀ y ∈ lists bin, y < wordMod
  apart : ∀ bin bin', ∀ y ∈ lists bin, ∀ z ∈ lists bin', bin ≠ bin' ∨ y ≠ z →
    y + bin.extent ≤ z ∨ z + bin'.extent ≤ y

/-- A node for `bin` that is in no list, and in no other node's way. -/
structure Fresh (lists : Bin → List Nat) (bin : Bin) (x : Nat) : Prop where
  nonnull : x ≠ 0
  fits : x < wordMod
  apart : ∀ other, ∀ y ∈ lists other, x + bin.extent ≤ y ∨ y + other.extent ≤ x

namespace Spread

variable {lists lists' : Bin → List Nat} {bin : Bin} {x : Nat}

theorem placed (spread : Spread lists) (bin : Bin) : Heap.Placed (lists bin) where
  nonnull := spread.nonnull bin
  apart y memY z memZ ne := by
    have wide := bin.le_extent
    unfold Apart
    rcases spread.apart bin bin y memY z memZ (Or.inr ne) with before | after
    · exact Or.inl (by omega)
    · exact Or.inr (by omega)
  fits := spread.fits bin

theorem subset (spread : Spread lists) (sub : ∀ bin, lists' bin ⊆ lists bin) : Spread lists' where
  nonnull bin member := spread.nonnull bin (sub bin member)
  fits bin y member := spread.fits bin y (sub bin member)
  apart bin bin' y memY z memZ := spread.apart bin bin' y (sub bin memY) z (sub bin' memZ)

theorem cons (spread : Spread lists) (fresh : Fresh lists bin x) :
    Spread (Function.update lists bin (x :: lists bin)) := by
  -- a node of the new lists is the new one or was there before
  have nodes : ∀ other, ∀ y ∈ Function.update lists bin (x :: lists bin) other,
      (other = bin ∧ y = x) ∨ y ∈ lists other := by
    intro other y member
    by_cases same : other = bin
    · subst same
      rw [Function.update_self] at member
      exact (List.mem_cons.mp member).imp_left fun first => ⟨rfl, first⟩
    · rw [Function.update_of_ne same] at member
      exact Or.inr member
  refine ⟨fun other member => ?_, fun other y member => ?_, fun other other' y memY z memZ ne => ?_⟩
  · rcases nodes other 0 member with ⟨-, null⟩ | old
    · exact fresh.nonnull null.symm
    · exact spread.nonnull other old
  · rcases nodes other y member with ⟨-, rfl⟩ | old
    · exact fresh.fits
    · exact spread.fits other y old
  · rcases nodes other y memY with ⟨rfl, rfl⟩ | oldY
    · rcases nodes other' z memZ with ⟨rfl, rfl⟩ | oldZ
      · exact absurd rfl (ne.resolve_left fun differ => differ rfl)
      · exact fresh.apart other' z oldZ
    · rcases nodes other' z memZ with ⟨rfl, rfl⟩ | oldZ
      · exact (fresh.apart other y oldY).symm
      · exact spread.apart other other' y oldY z oldZ ne

end Spread

namespace Heap

/-- The list that `pop` and `push` take for the block. -/
def binOf (h : Heap) (x : Nat) : Bin := Block.bin ⟨x, h.getSize x, false⟩

/-- The lists of the other bins keep their heads and every byte of their nodes. -/
def OthersKept (h h' : Heap) (lists : Bin → List Nat) (bin : Bin) : Prop :=
  ∀ other, other ≠ bin → h'.binHead other = h.binHead other ∧
    ∀ y ∈ lists other, ∀ a, y ≤ a → a < y + other.extent → h'.mem a = h.mem a

/-- Well-linked free lists. -/
structure Family (h : Heap) (lists : Bin → List Nat) : Prop where
  linked : ∀ bin, h.Linked bin (lists bin)
  spread : Spread lists

variable {h h' : Heap} {lists : Bin → List Nat} {x : Nat} {bin : Bin}

/-- What is written to the link words of some nodes leaves the nodes apart from them alone. -/
theorem Relinked.kept {nodes : List Nat} {other : Bin} {y : Nat} (relinked : Relinked h h' nodes bin.width)
    (apart : ∀ z ∈ nodes, z + bin.extent ≤ y ∨ y + other.extent ≤ z) :
    ∀ a, y ≤ a → a < y + other.extent → h'.mem a = h.mem a := by
  refine fun a lo hi => relinked.mem a fun z memZ => ?_
  have := apart z memZ
  simp only [Bin.extent] at *
  omega

/-- The header of a node is no link word. -/
theorem Relinked.getSize {nodes : List Nat} (relinked : Relinked h h' nodes bin.width)
    (apart : ∀ z ∈ nodes, z = x ∨ z + bin.extent ≤ x ∨ x + bin.extent ≤ z) : h'.getSize x = h.getSize x := by
  have header : h'.word x = h.word x := word_congr fun a lo hi => relinked.mem a fun z memZ => by
    have wide := bin.le_extent
    have := apart z memZ
    simp only [Bin.extent] at *
    omega
  exact congrArg extractSize header

/-- The family after one list is relinked. -/
theorem Family.update (family : h.Family lists) (kept : h.OthersKept h' lists bin) {l : List Nat}
    (linked : h'.Linked bin l) (spread : Spread (Function.update lists bin l)) :
    h'.Family (Function.update lists bin l) := by
  refine ⟨fun other => ?_, spread⟩
  by_cases same : other = bin
  · subst same
    rwa [Function.update_self]
  · obtain ⟨head, bytes⟩ := kept other same
    rw [Function.update_of_ne same]
    refine (family.linked other).congr head fun y member a lo hi => bytes y member a (by omega) ?_
    simp only [Bin.extent]
    omega

/-- **`push` puts the block first in the list it selects.** -/
theorem push_family (family : h.Family lists) (fresh : Fresh lists (h.binOf x) x) :
    (h.push x).Family (Function.update lists (h.binOf x) (x :: lists (h.binOf x))) ∧
      h.OthersKept (h.push x) lists (h.binOf x) ∧ (h.push x).binOf x = h.binOf x := by
  have spread := family.spread.cons fresh
  have placed := spread.placed (h.binOf x)
  rw [Function.update_self] at placed
  have off : x ∉ lists (h.binOf x) := fun member => by
    have wide := (h.binOf x).le_extent
    have := fresh.apart _ x member
    omega
  obtain ⟨linked, relinked, heads⟩ :=
    push_bin (b := ⟨x, h.getSize x, false⟩) rfl (family.linked (h.binOf x)) placed off
  have kept : h.OthersKept (h.push x) lists (h.binOf x) := fun other ne => by
    refine ⟨heads other ne, fun y member => relinked.kept fun z memZ => ?_⟩
    rcases List.mem_cons.mp memZ with rfl | old
    · exact fresh.apart other y member
    · exact family.spread.apart _ other z old y member (Or.inl ne.symm)
  have size : (h.push x).getSize x = h.getSize x := relinked.getSize fun z memZ => by
    rcases List.mem_cons.mp memZ with rfl | old
    · exact Or.inl rfl
    · exact Or.inr (fresh.apart _ z old).symm
  refine ⟨family.update kept linked spread, kept, ?_⟩
  rw [binOf, size]
  rfl

/-- **`pop` takes the block out of its list**, wherever it stands there. -/
theorem pop_family {pre post : List Nat} (family : h.Family lists) (split : lists (h.binOf x) = pre ++ x :: post) :
    ∃ h', h.pop x = some h' ∧ h'.Family (Function.update lists (h.binOf x) (pre ++ post)) ∧
      h.OthersKept h' lists (h.binOf x) := by
  have list := family.linked (h.binOf x)
  have placed := family.spread.placed (h.binOf x)
  rw [split] at list placed
  obtain ⟨h', popped, linked, relinked, heads⟩ := pop_bin (b := ⟨x, h.getSize x, false⟩) rfl list placed
  have kept : h.OthersKept h' lists (h.binOf x) := fun other ne => by
    refine ⟨heads other ne, fun y member => relinked.kept fun z memZ => ?_⟩
    exact family.spread.apart _ other z (split ▸ memZ) y member (Or.inl ne.symm)
  refine ⟨h', popped, family.update kept linked (family.spread.subset fun other y member => ?_), kept⟩
  by_cases same : other = h.binOf x
  · subst same
    rw [Function.update_self] at member
    rw [split]
    rw [List.mem_append] at member ⊢
    exact member.imp_right (List.mem_cons_of_mem _)
  · rwa [Function.update_of_ne same] at member

/-- The head of a list is its first node. -/
theorem Linked.head {l : List Nat} (linked : h.Linked bin l) : h.binHead bin = l.headD 0 := by
  cases bin with
  | seg i => exact linked.forward.headD.symm
  | min j => exact linked.headD.symm

/-- **What `push` and `pop` do to the family of free lists**: a block that is pushed comes first in
the one list it selects, a block that is popped leaves its list and nothing else changes place, and
a pop right after a push restores every list. -/
theorem lists_maintained (family : h.Family lists) (x : Nat) :
    (Fresh lists (h.binOf x) x →
      (h.push x).Family (Function.update lists (h.binOf x) (x :: lists (h.binOf x))) ∧
        h.OthersKept (h.push x) lists (h.binOf x) ∧
        ∃ h', (h.push x).pop x = some h' ∧ h'.Family lists ∧ ∀ bin, h'.binHead bin = h.binHead bin) ∧
    (∀ pre post, lists (h.binOf x) = pre ++ x :: post →
      ∃ h', h.pop x = some h' ∧ h'.Family (Function.update lists (h.binOf x) (pre ++ post)) ∧
        h.OthersKept h' lists (h.binOf x)) := by
  refine ⟨fun fresh => ?_, fun pre post split => pop_family family split⟩
  obtain ⟨pushed, kept, sameBin⟩ := push_family family fresh
  refine ⟨pushed, kept, ?_⟩
  have first : Function.update lists (h.binOf x) (x :: lists (h.binOf x)) ((h.push x).binOf x) =
      [] ++ x :: lists (h.binOf x) := by
    rw [sameBin, Function.update_self, List.nil_append]
  obtain ⟨h', popped, restored, -⟩ := pop_family pushed first
  rw [sameBin, Function.update_idem, List.nil_append, Function.update_eq_self] at restored
  exact ⟨h', popped, restored, fun bin => (restored.linked bin).head.trans (family.linked bin).head.symm⟩

/-- A heap with one free block, of 64 bytes, and another one of that size that is in no list. -/
def oneFree : Heap where
  mem := write64 (write64 (fun _ => 0) 4096 64) 8192 64
  brk := 16384
  maxAddr := 16384
  heapStart := 4088
  heapEnd := 8192
  segList i := if i.val = 1 then 4096 else 0
  minList _ := 0

def oneFreeLists : Bin → List Nat
  | .seg i => if i.val = 1 then [4096] else []
  | .min _ => []

theorem mem_oneFreeLists {y : Nat} (member : y ∈ oneFreeLists bin) : bin = .seg 1 ∧ y = 4096 := by
  cases bin with
  | seg i =>
      rw [oneFreeLists] at member
      split at member
      · next first => exact ⟨congrArg Bin.seg (Fin.ext first), List.mem_singleton.mp member⟩
      · cases member
  | min j => cases member

theorem oneFree_family : oneFree.Family oneFreeLists := by
  have next : oneFree.next 4096 = 0 := by decide +kernel
  have prev : oneFree.prev 4096 = 0 := by decide +kernel
  refine ⟨fun bin => ?_, fun bin member => ?_, fun bin y member => ?_, fun bin bin' y memY z memZ ne => ?_⟩
  · cases bin with
    | seg i =>
        by_cases first : i.val = 1
        · obtain rfl : i = 1 := Fin.ext first
          exact ⟨⟨rfl, next⟩, ⟨rfl, prev⟩⟩
        · have empty : oneFreeLists (.seg i) = [] := if_neg first
          have head : oneFree.segList i = 0 := if_neg first
          rw [empty]
          exact ⟨head, rfl⟩
    | min j => exact rfl
  · exact absurd (mem_oneFreeLists member).2 (by decide)
  · rw [(mem_oneFreeLists member).2]
    decide
  · obtain ⟨rfl, rfl⟩ := mem_oneFreeLists memY
    obtain ⟨rfl, rfl⟩ := mem_oneFreeLists memZ
    exact absurd ne (by simp)

theorem lists_maintained_one :
    (oneFree.push 8192).Family (Function.update oneFreeLists (.seg 1) [8192, 4096]) ∧
      (∃ h', (oneFree.push 8192).pop 8192 = some h' ∧ h'.Family oneFreeLists) ∧
      ∃ h', oneFree.pop 4096 = some h' ∧ h'.Family (Function.update oneFreeLists (.seg 1) []) := by
  have fresh : Fresh oneFreeLists (oneFree.binOf 8192) 8192 := by
    refine ⟨by decide, by decide, fun other y member => Or.inr ?_⟩
    obtain ⟨rfl, rfl⟩ := mem_oneFreeLists member
    decide
  have binNew : oneFree.binOf 8192 = .seg 1 := by decide +kernel
  have binOld : oneFree.binOf 4096 = .seg 1 := by decide +kernel
  obtain ⟨pushed, -, h', popped, restored, -⟩ := (lists_maintained oneFree_family 8192).1 fresh
  obtain ⟨h'', taken, left, -⟩ := (lists_maintained oneFree_family 4096).2 [] [] (by rw [binOld]; rfl)
  rw [binNew] at pushed
  rw [binOld] at left
  exact ⟨pushed, ⟨h', popped, restored⟩, h'', taken, left⟩

end Heap

end SystemsLabs.Malloc
