/-
# SystemsLabs.Driver.SplayMap -- the splay tree is a finite map

An insertion puts a node where its search ends (`SearchTree.insert`); a removal splays the
node, unhooks it and leaves the others in order (`SearchTree.remove`).

`tree_implements_map`: after any calls from `tree_new` the tree implements the map that the
calls describe, every further call answers as the map says, and `splay` brings any node to
the root.
-/
import SystemsLabs.Driver.SplaySearch
import SystemsLabs.Theory.Runs

namespace SystemsLabs.Driver

set_option autoImplicit false

open Theory.LinkedTree Theory.Runs

namespace SplayTree

variable {s s' : SplayTree} {d : Side} {x y z p par u v record : Addr} {k : Int} {fuel : Nat} {count : UInt64}
  {path : Path Addr} {l r t : BinaryTree Addr} {m : Contents}

/-! ## Insertion -/

/-- The state once the node `z` is allocated. -/
def allocated (s : SplayTree) (z p : Addr) (k : Int) (record : Addr) : SplayTree :=
  { s with nodes := s.nodes.insert z ⟨0, 0, p, k, record⟩ }

theorem mem_allocated : y ∈ (s.allocated z p k record).nodes ↔ y = z ∨ y ∈ s.nodes := AList.mem_insert _

theorem allocated_ne (other : y ≠ z) : s.links.SameAt (s.allocated z p k record).links y ∧
    (s.allocated z p k record).keyAt y = s.keyAt y ∧ (s.allocated z p k record).recordAt y = s.recordAt y := by
  refine ⟨⟨fun d => ?_, ?_⟩, ?_, ?_⟩ <;>
    simp [links, keyAt, recordAt, rest, allocated, AList.lookup_insert_ne other]

theorem allocated_self (s : SplayTree) (z p : Addr) (k : Int) (record : Addr) : (∀ d, (s.allocated z p k record).links.child d z = 0) ∧
    (s.allocated z p k record).links.parent z = p ∧ (s.allocated z p k record).keyAt z = k ∧
    (s.allocated z p k record).recordAt z = record := by
  refine ⟨fun d => ?_, ?_, ?_, ?_⟩
  · cases d <;> simp [links, allocated, TreeNode.child]
  · simp [links, allocated]
  · simp [keyAt, rest, allocated]
  · simp [recordAt, rest, allocated]

theorem Links.Hole.parent_eq_tip {L : Links Addr} (hole : L.Hole 0 path x par) : par = tip path := by
  cases path with
  | nil => exact hole.2
  | cons f path => exact hole.2.1

/-- The pointer to the new node is set. -/
theorem Located.attach_hole (located : Located s t k path .nil) (record : Addr) (rep : s.Represents t) (fresh : z ∉ s.nodes) :
    ∃ s', (s.allocated z (tip path) k record).attach (tip path) z k = some s' ∧
      s'.links.Hole 0 path z (tip path) ∧ (s.allocated z (tip path) k record).links.SameAt s'.links z ∧
      s'.rest = (s.allocated z (tip path) k record).rest := by
  obtain ⟨q, par, hole, -⟩ := Links.tree_plug.mp (located.whole ▸ rep.tree)
  obtain rfl := Links.Hole.parent_eq_tip hole
  have nodup : (outside path).Nodup := by
    have perm := inorder_plug_perm path (.nil : BinaryTree Addr)
    rw [located.whole] at perm
    exact perm.nodup rep.nodup
  have live : ∀ y ∈ outside path, y ∈ s.nodes := fun y member =>
    (rep.live y).mpr (located.whole ▸ mem_plug.mpr (.inr member))
  have other : ∀ y ∈ outside path, y ≠ z := by
    rintro y member rfl
    exact fresh (live y member)
  have hole₁ : (s.allocated z (tip path) k record).links.Hole 0 path q (tip path) :=
    hole.congr rfl fun y member => (allocated_ne (other y member)).1
  cases path with
  | nil => exact ⟨{ s.allocated z 0 k record with root := z }, if_pos rfl, ⟨rfl, rfl⟩, ⟨fun _ => rfl, rfl⟩, rfl⟩
  | cons f path =>
      have member : f.node ∈ outside (f :: path) := by simp [outside]
      have inNodes : f.node ∈ (s.allocated z f.node k record).nodes := mem_allocated.mpr (.inr (live _ member))
      -- the comparison of the keys finds the side that the search took
      have side : (if s.keyAt f.node < k then Side.right else .left) = f.side := by
        obtain ⟨side, q, sibling⟩ := f
        cases side with
        | left => exact if_neg (not_lt.mpr (located.above q (by simp [after])).le)
        | right => exact if_pos (located.below q (by simp [before]))
      obtain ⟨s', step, links', rest'⟩ := edit_setChild inNodes f.side z
      refine ⟨s', ?_, ?_, ?_, rest'⟩
      · rw [tip, attach, if_neg hole.2.2.1, key_eq inNodes, (allocated_ne (other _ member)).2.1, Option.bind_eq_bind,
          Option.bind_some, ← step, ← side]
        split <;> rfl
      · rw [links']
        exact hole₁.setChild nodup z
      · rw [links']
        exact ⟨fun e => Links.setChild_child_ne (Ne.symm (other _ member)), rfl⟩

/-- **The new node** takes the place where its key belongs. -/
theorem Located.attach (located : Located s t k path .nil) (record : Addr) (rep : s.Represents t) (real : z ≠ 0)
    (fresh : z ∉ s.nodes) :
    ∃ s', (s.allocated z (tip path) k record).attach (tip path) z k = some s' ∧
      s'.Represents (plug path (.node z .nil .nil)) ∧ s'.rest = (s.allocated z (tip path) k record).rest := by
  obtain ⟨s', step, hole, same, rest'⟩ := located.attach_hole record rep fresh
  obtain ⟨children, parent, -⟩ := allocated_self s z (tip path) k record
  have order : inorder (plug path (.node z .nil .nil)) = before path ++ z :: after path := by
    simp [inorder_plug, inorder]
  have split : inorder t = before path ++ after path := by
    rw [← located.whole, inorder_plug]
    simp [inorder]
  have liveIn : ∀ y, y ∈ s'.nodes ↔ y = z ∨ y ∈ inorder t := fun y => by
    rw [mem_congr rest', mem_allocated, rep.live]
  refine ⟨s', step, ⟨Links.tree_plug.mpr ⟨z, tip path, hole, rfl, real, ?_, ?_, ?_⟩, ?_, ?_⟩, rest'⟩
  · rw [same.2, parent]
  · exact (same.1 _).trans (children _)
  · exact (same.1 _).trans (children _)
  · rw [order, List.nodup_middle, List.nodup_cons, ← split]
    exact ⟨fun member => fresh ((rep.live z).mpr member), rep.nodup⟩
  · intro y
    rw [liveIn, order, split]
    simp only [List.mem_append, List.mem_cons]
    tauto

theorem toNat_add_one {c : UInt64} {n : Nat} (isCount : c.toNat = n) (small : n + 1 < 2 ^ 64) :
    (c + 1).toNat = n + 1 := by
  rw [UInt64.toNat_add, isCount]
  exact Nat.mod_eq_of_lt small

/-- The nodes are no more than the addresses other than `NULL`. -/
theorem Represents.length_lt (rep : s.Represents t) : (inorder t).length < 2 ^ 64 := by
  have nodup : ((0 : Addr) :: inorder t).Nodup :=
    List.nodup_cons.mpr ⟨fun member => rep.tree.ne_null 0 member rfl, rep.nodup⟩
  have images : (((0 : Addr) :: inorder t).map UInt64.toNat).Nodup :=
    nodup.map fun a b same => UInt64.toNat_inj.mp same
  have bounded : ((0 : Addr) :: inorder t).map UInt64.toNat ⊆ List.range (2 ^ 64) := by
    intro n member
    obtain ⟨a, -, rfl⟩ := List.mem_map.mp member
    exact List.mem_range.mpr a.toNat_lt
  have le := (List.subperm_of_subset images bounded).length_le
  rw [List.length_map, List.length_cons, List.length_range] at le
  omega

/-- The bindings and the order of the keys once the new node is among the others. -/
theorem Located.bindings (located : Located s t k path .nil) (st : s.SearchTree t) (holds : s.Holds t m)
    (fresh : z ∉ s.nodes) (allocated : s'.rest.1 = (s.allocated z p k record).rest.1)
    {t' : BinaryTree Addr} (order : inorder t' = before path ++ z :: after path) :
    (inorder t').Pairwise (s'.keyAt · < s'.keyAt ·) ∧ s'.Holds t' (Function.update m k (some record)) := by
  have split : inorder t = before path ++ after path := by
    rw [← located.whole, inorder_plug]
    simp [inorder]
  have old : ∀ y ∈ before path ++ after path, s'.keyAt y = s.keyAt y ∧ s'.recordAt y = s.recordAt y := by
    intro y member
    have other : y ≠ z := by
      rintro rfl
      exact fresh ((st.live y).mpr (split ▸ member))
    have same : (s.allocated z p k record).keyAt y = s.keyAt y ∧ (s.allocated z p k record).recordAt y = s.recordAt y :=
      (allocated_ne other).2
    rw [keyAt, recordAt, allocated]
    exact same
  have new : s'.keyAt z = k ∧ s'.recordAt z = record := by
    have self := (allocated_self s z p k record).2.2
    rw [keyAt, recordAt, allocated]
    exact self
  have below : ∀ y ∈ before path, s'.keyAt y < k := fun y member => by
    rw [(old y (List.mem_append_left _ member)).1]
    exact located.below y member
  have above : ∀ y ∈ after path, k < s'.keyAt y := fun y member => by
    rw [(old y (List.mem_append_right _ member)).1]
    exact located.above y member
  constructor
  · have sorted := st.sorted
    rw [split, List.pairwise_append] at sorted
    have left : (before path).Pairwise (s'.keyAt · < s'.keyAt ·) :=
      sorted.1.imp_of_mem fun a b less => by rwa [(old _ (List.mem_append_left _ a)).1, (old _ (List.mem_append_left _ b)).1]
    have right : (after path).Pairwise (s'.keyAt · < s'.keyAt ·) :=
      sorted.2.1.imp_of_mem fun a b less => by
        rwa [(old _ (List.mem_append_right _ a)).1, (old _ (List.mem_append_right _ b)).1]
    rw [order, List.pairwise_append, List.pairwise_cons, new.1]
    refine ⟨left, ⟨above, right⟩, fun a inBefore b member => ?_⟩
    rw [List.mem_cons] at member
    obtain rfl | inAfter := member
    · exact new.1 ▸ below a inBefore
    · exact (below a inBefore).trans (above b inAfter)
  · intro j r
    have member : ∀ y, y ∈ inorder t' ↔ y = z ∨ y ∈ inorder t := fun y => by
      rw [order, split]
      simp only [List.mem_append, List.mem_cons]
      tauto
    simp only [member, or_and_right, exists_or, exists_eq_left, new]
    by_cases here : j = k
    · subst here
      rw [Function.update_self, Option.some_inj]
      constructor
      · exact fun same => .inl ⟨rfl, same⟩
      · rintro (⟨-, same⟩ | ⟨y, inTree, isKey, -⟩)
        · exact same
        · rw [split, List.mem_append] at inTree
          obtain inBefore | inAfter := inTree
          · exact absurd isKey (below y inBefore).ne
          · exact absurd isKey (above y inAfter).ne'
    · rw [Function.update_of_ne here, holds]
      constructor
      · rintro ⟨y, inTree, same⟩
        exact .inr ⟨y, inTree, by rwa [(old y (split ▸ inTree)).1, (old y (split ▸ inTree)).2]⟩
      · rintro (⟨same, -⟩ | ⟨y, inTree, same⟩)
        · exact absurd same.symm here
        · exact ⟨y, inTree, by rwa [(old y (split ▸ inTree)).1, (old y (split ▸ inTree)).2] at same⟩

/-- `tree_insert` -/
theorem SearchTree.insert (st : s.SearchTree t) (holds : s.Holds t m) (k : Int) (record : Addr) (real : z ≠ 0)
    (fresh : z ∉ s.nodes) :
    (m k ≠ none ∧ ∃ count, s.treeInsert k record z = some (false, { s with comparisonCount := count })) ∨
    m k = none ∧ ∃ s' t', s.treeInsert k record z = some (true, s') ∧ s'.SearchTree t' ∧
      s'.Holds t' (Function.update m k (some record)) := by
  obtain ⟨p, count, search, isTip⟩ := st.search k
  obtain ⟨path, located⟩ | ⟨path, x, l, r, located, isKey⟩ := st.located k
  · refine .inr ⟨located.miss holds, ?_⟩
    rw [located.eq] at search isTip
    rw [isTip rfl] at search
    have st₁ := st.recount count
    have at₁ : Located { s with comparisonCount := count } t k path .nil := ⟨located.eq, located.whole, located.below, located.above⟩
    obtain ⟨s₂, step₂, rep₂, rest₂⟩ := at₁.attach record st₁.toRepresents real fresh
    obtain ⟨s₃, l, r, step₃, rep₃, order₃, rest₃⟩ := rep₂.splay (x := z) (by simp [mem_plug, inorder])
    have rests := rest₃.trans rest₂
    have order : inorder (.node z l r) = before path ++ z :: after path := by
      rw [order₃, inorder_plug]
      simp [inorder]
    obtain ⟨s₄, isCounted⟩ : ∃ s₄, s₄ = { s₃ with nodeCount := s₃.nodeCount + 1 } := ⟨_, rfl⟩
    have payload : s₄.rest.1 = (SplayTree.allocated { s with comparisonCount := count } z (tip path) k record).rest.1 := by
      rw [isCounted, ← rests]
      rfl
    obtain ⟨sorted, holds'⟩ := at₁.bindings st₁ holds fresh payload order
    have rep₄ : s₄.Represents (.node z l r) := by
      rw [isCounted]
      exact ⟨rep₃.tree, rep₃.nodup, rep₃.live⟩
    refine ⟨s₄, .node z l r, ?_, ⟨rep₄, sorted, ?_⟩, holds'⟩
    · rw [treeInsert, search]
      simp only [Option.bind_eq_bind, Option.bind_some, top, ne_eq, not_true, if_false, if_neg real]
      rw [allocated] at step₂
      rw [step₂, Option.bind_some, step₃, Option.bind_some, isCounted]
    · have same : s₃.nodeCount = s.nodeCount := congrArg (fun rest => rest.2.1) rests
      have length : (inorder (.node z l r)).length = (inorder t).length + 1 := by
        rw [order, ← located.whole, inorder_plug]
        simp [inorder]
        omega
      have small := rep₃.length_lt
      rw [length] at small ⊢
      rw [isCounted]
      exact toNat_add_one (same ▸ st.count) small
  · refine .inl ⟨by simp [located.hit isKey holds], count, ?_⟩
    rw [located.eq] at search
    rw [treeInsert, search]
    have real : x ≠ 0 := st.tree.ne_null x located.mem
    simp [top, real]

/-! ## Removal -/

theorem edit_replace (live : u ∈ s.nodes) (liveParent : s.links.parent u ≠ 0 → s.links.parent u ∈ s.nodes)
    (liveNew : v ≠ 0 → v ∈ s.nodes) : Edit s (s.replace u v) (s.links.replace 0 u v) := by
  rw [SplayTree.replace]
  refine (edit_relink live liveParent v).bind fun s₁ links₁ rest₁ => ?_
  have live₁ := fun y => mem_congr (x := y) rest₁
  rw [Links.replace, ← links₁]
  split
  · exact Edit.refl s₁
  · next real =>
    have parent : s₁.links.parent u = s.links.parent u := by rw [links₁, Links.relink_parent]
    rw [parent_eq ((live₁ u).mpr live), Option.bind_eq_bind, Option.bind_some, parent]
    exact edit_setParent ((live₁ v).mpr (liveNew real)) _

theorem edit_promote (liveZ : z ∈ s.nodes) (liveY : y ∈ s.nodes) (liveLeft : s.links.child .left z ∈ s.nodes)
    (realZ : z ≠ 0) (atTop : s.links.parent z = 0) : Edit s (s.promote z y) (s.links.promote 0 z y) := by
  rw [SplayTree.promote]
  refine (edit_replace liveZ (fun real => absurd atTop real) fun _ => liveY).bind fun s₁ links₁ rest₁ => ?_
  have live₁ := fun y => mem_congr (x := y) rest₁
  have left : s₁.links.child .left z = s.links.child .left z := by
    rw [links₁, Links.replace_child (by rwa [atTop])]
  rw [child_eq ((live₁ z).mpr liveZ), Option.bind_eq_bind, Option.bind_some, left]
  refine (edit_setChild ((live₁ y).mpr liveY) .left _).bind fun s₂ links₂ rest₂ => ?_
  have live₂ := fun y => mem_congr (x := y) (rest₂.trans rest₁)
  have link : s₂.links.child .left y = s.links.child .left z := by
    rw [links₂, Links.setChild_child]
  rw [child_eq ((live₂ y).mpr liveY), Option.bind_some, link, Links.promote, ← links₁, ← links₂]
  exact edit_setParent ((live₂ _).mpr liveLeft) y

theorem edit_takeRight (liveZ : z ∈ s.nodes) (liveY : y ∈ s.nodes)
    (liveParent : s.links.parent y ∈ s.nodes)
    (liveRight : s.links.child .right y ≠ 0 → s.links.child .right y ∈ s.nodes)
    (liveOther : s.links.child .right z ∈ s.nodes) (deep : z ≠ s.links.parent y) :
    Edit s (s.takeRight z y) (s.links.takeRight 0 z y) := by
  rw [SplayTree.takeRight, child_eq liveY, Option.bind_eq_bind, Option.bind_some]
  refine (edit_replace liveY (fun _ => liveParent) liveRight).bind fun s₁ links₁ rest₁ => ?_
  have live₁ := fun y => mem_congr (x := y) rest₁
  have right : s₁.links.child .right z = s.links.child .right z := by
    rw [links₁, Links.replace_child deep]
  rw [child_eq ((live₁ z).mpr liveZ), Option.bind_eq_bind, Option.bind_some]
  refine (edit_setChild ((live₁ y).mpr liveY) .right _).bind fun s₂ links₂ rest₂ => ?_
  have live₂ := fun y => mem_congr (x := y) (rest₂.trans rest₁)
  have link : s₂.links.child .right y = s₁.links.child .right z := by
    rw [links₂, Links.setChild_child]
  rw [child_eq ((live₂ y).mpr liveY), Option.bind_some, link, Links.takeRight, ← links₁, ← links₂]
  exact edit_setParent ((live₂ _).mpr (right ▸ liveOther)) y

theorem subtreeMinimum_eq (tree : s.links.Tree 0 (.node x l r) p par)
    (live : ∀ y ∈ inorder (.node x l r), y ∈ s.nodes) (enough : (inorder (.node x l r)).length ≤ fuel) :
    ∃ path y t, .node x l r = plug path (.node y .nil t) ∧ before path = [] ∧ s.subtreeMinimum fuel p = some y := by
  induction l generalizing x r p par fuel with
  | nil =>
      obtain ⟨fuel, rfl⟩ : ∃ n, fuel = n + 1 := Nat.exists_eq_succ_of_ne_zero (by simp [inorder] at enough; omega)
      obtain ⟨rfl, -, -, left, -⟩ := tree
      refine ⟨[], p, r, rfl, rfl, ?_⟩
      rw [subtreeMinimum, child_eq (live p (by simp [inorder])), Option.bind_eq_bind, Option.bind_some,
        if_pos (Links.tree_nil.mp left)]
  | node y l' r' ih _ =>
      obtain ⟨fuel, rfl⟩ : ∃ n, fuel = n + 1 := Nat.exists_eq_succ_of_ne_zero (by simp [inorder] at enough; omega)
      obtain ⟨rfl, -, -, left, -⟩ := tree
      obtain ⟨path, z, t, split, first, found⟩ := ih left (fun q member => live q (by rw [inorder]; simp [member]))
        (show (inorder (.node y l' r')).length ≤ fuel by simp [inorder] at enough ⊢; omega)
      refine ⟨path ++ [⟨.left, p, r⟩], z, t, ?_, ?_, ?_⟩
      · rw [plug_append, ← split]
        rfl
      · rw [before_append, first]
        rfl
      · rw [subtreeMinimum, child_eq (live p (by simp [inorder])), Option.bind_eq_bind, Option.bind_some,
          if_neg (left.ne_null_of_ne_nil (by simp)), found]

/-- The successor of the root is ready to take its place. -/
theorem Represents.takeRight (rep : s.Represents (.node z l (plug path (.node y .nil t)))) :
    ∃ s', (if s.links.parent y ≠ z then s.takeRight z y else some s) = some s' ∧ s'.links.parent z = 0 ∧
      s'.links.Tree 0 l (s'.links.child .left z) z ∧ s'.links.Tree 0 (plug path t) (s'.links.child .right y) y ∧
      s'.rest = s.rest := by
  have lower : s.Represents (plug (path ++ [⟨.right, z, l⟩]) (join .left y .nil t)) := by
    rw [plug_append]
    exact rep
  have live : ∀ q ∈ inorder (plug path (.node y .nil t)), q ∈ s.nodes := fun q member =>
    (rep.live q).mpr (by simp [inorder, member])
  cases path with
  | nil =>
      obtain ⟨-, -, atTop, left, -, -, parent, -, right⟩ := rep.tree
      exact ⟨s, if_neg (not_not.mpr parent), atTop, left, right, rfl⟩
  | cons f path =>
      have under : s.Under y f := lower.under
      obtain ⟨-, real, atTop, left, right⟩ := rep.tree
      have inPath : f.node ∈ outside (f :: path) := by simp [outside]
      have deep : z ≠ f.node := by
        rintro rfl
        have nodup := (List.nodup_middle.mp rep.nodup)
        exact (List.nodup_cons.mp nodup).1 (List.mem_append_right _ (mem_plug.mpr (.inr inPath)))
      have nonempty : plug (f :: path) (.node y .nil t) ≠ .nil := by
        intro isNil
        have member : y ∈ inorder (plug (f :: path) (.node y .nil t)) := by simp [mem_plug, inorder]
        rw [isNil] at member
        cases member
      obtain ⟨q, par, hole, subtree⟩ := Links.tree_plug.mp lower.tree
      obtain ⟨s', step, links', rest'⟩ : Edit s (s.takeRight z y) (s.links.takeRight 0 z y) := by
        refine edit_takeRight ((rep.live z).mpr (by simp [inorder])) under.live ?_ ?_ ?_ ?_
        · exact under.parent ▸ under.liveParent
        · intro real
          exact live _ (mem_plug.mpr (.inl (by simp [inorder, subtree.2.2.2.2.mem_of_ne_null real])))
        · exact live _ (right.mem_of_ne_null (right.ne_null_of_ne_nil nonempty))
        · rwa [under.parent]
      refine ⟨s', ?_, ?_⟩
      · rw [if_pos (by rw [under.parent]; exact deep.symm), step]
      · rw [links']
        obtain ⟨atTop', left', right'⟩ := Links.takeRight_trees rep.tree rep.nodup
        exact ⟨atTop', left', right', rest'⟩

/-- **The splayed node** is unhooked: its two subtrees are put together. -/
theorem Represents.unhook (rep : s.Represents (.node z l r)) :
    ∃ s' t', s.unhook z = some s' ∧ s'.links.Tree 0 t' s'.links.root 0 ∧
      inorder t' = inorder l ++ inorder r ∧ s'.rest = s.rest := by
  obtain ⟨-, real, atTop, left, right⟩ := rep.tree
  have liveZ : z ∈ s.nodes := (rep.live z).mpr (by simp [inorder])
  have liveL : ∀ y ∈ inorder l, y ∈ s.nodes := fun y member => (rep.live y).mpr (by simp [inorder, member])
  have liveR : ∀ y ∈ inorder r, y ∈ s.nodes := fun y member => (rep.live y).mpr (by simp [inorder, member])
  rw [SplayTree.unhook, child_eq liveZ, child_eq liveZ]
  simp only [Option.bind_eq_bind, Option.bind_some]
  by_cases noLeft : s.links.child .left z = 0
  · -- the right subtree takes its place
    rw [if_pos noLeft]
    have isNil : l = .nil := by
      by_contra nonempty
      exact left.ne_null_of_ne_nil nonempty noLeft
    subst isNil
    obtain ⟨s', step, links', rest'⟩ := edit_replace liveZ (fun real => absurd atTop real)
      fun real => liveR _ (right.mem_of_ne_null real)
    refine ⟨s', r, step, ?_, rfl, rest'⟩
    rw [links']
    exact Links.Tree.replace .left [] rep.tree rep.nodup
  · rw [if_neg noLeft]
    by_cases noRight : s.links.child .right z = 0
    · rw [if_pos noRight]
      have isNil : r = .nil := by
        by_contra nonempty
        exact right.ne_null_of_ne_nil nonempty noRight
      subst isNil
      obtain ⟨s', step, links', rest'⟩ := edit_replace liveZ (fun real => absurd atTop real)
        fun real => liveL _ (left.mem_of_ne_null real)
      refine ⟨s', l, step, ?_, by simp [inorder], rest'⟩
      rw [links']
      exact Links.Tree.replace .right [] rep.tree rep.nodup
    · -- the successor takes its place
      rw [if_neg noRight]
      cases r with
      | nil => exact absurd right noRight
      | node q rl rr =>
          have length := rep.length_eq
          rw [inorder, List.length_append, List.length_cons] at length
          obtain ⟨path, y, t, split, first, minimum⟩ := subtreeMinimum_eq right liveR
            (show (inorder (.node q rl rr)).length ≤ s.nodes.entries.length + 1 by omega)
          have inR : y ∈ inorder (.node q rl rr) := by
            rw [split]
            simp [mem_plug, inorder]
          rw [minimum, Option.bind_some, parent_eq (liveR y inR), Option.bind_some]
          rw [split] at rep ⊢
          have order : inorder (.node y l (plug path t)) = inorder l ++ inorder (plug path (.node y .nil t)) := by
            simp [inorder, inorder_plug, first]
          have apart : (inorder (.node y l (plug path t))).Nodup := by
            rw [order]
            exact (List.nodup_cons.mp (List.nodup_middle.mp rep.nodup)).2
          have nonempty : l ≠ .nil := by
            rintro rfl
            exact noLeft left
          obtain ⟨s₁, step₁, atTop₁, left₁, right₁, rest₁⟩ := rep.takeRight
          have live₁ := fun y => mem_congr (x := y) rest₁
          have real₁ := left₁.ne_null_of_ne_nil nonempty
          rw [step₁, Option.bind_some]
          obtain ⟨s₂, step₂, links₂, rest₂⟩ := edit_promote ((live₁ z).mpr liveZ) ((live₁ y).mpr (liveR y inR))
            ((live₁ _).mpr (liveL _ (left₁.mem_of_ne_null real₁))) real atTop₁
          refine ⟨s₂, .node y l (plug path t), step₂, ?_, order, rest₂.trans rest₁⟩
          rw [links₂]
          exact Links.promote_tree atTop₁ (right.ne_null y inR) left₁ right₁ real₁ (List.nodup_middle.mp apart)

theorem toNat_sub_one {c : UInt64} {n : Nat} (isCount : c.toNat = n + 1) : (c - 1).toNat = n := by
  rw [UInt64.toNat_sub_of_le _ _ (UInt64.le_iff_toNat_le.mpr (by rw [isCount]; simp)), isCount]
  rfl

theorem mem_erased : y ∈ s.nodes.erase z ↔ y ≠ z ∧ y ∈ s.nodes := AList.mem_erase

/-- The state once the node `z` is freed. -/
def freed (s : SplayTree) (z : Addr) : SplayTree :=
  { s with nodes := s.nodes.erase z, nodeCount := s.nodeCount - 1 }

theorem freed_ne (other : y ≠ z) : s.links.SameAt (s.freed z).links y ∧
    (s.freed z).keyAt y = s.keyAt y ∧ (s.freed z).recordAt y = s.recordAt y := by
  refine ⟨⟨fun d => ?_, ?_⟩, ?_, ?_⟩ <;>
    simp [links, keyAt, recordAt, rest, freed, AList.lookup_erase_ne other]

/-- What is left when a node leaves the middle of the order. -/
theorem SearchTree.freed {t' : BinaryTree Addr} {pre post : List Addr} (st : s.SearchTree t) (holds : s.Holds t m)
    (split : inorder t = pre ++ x :: post) (rests : s'.rest = s.rest)
    (tree : s'.links.Tree 0 t' s'.links.root 0) (order : inorder t' = pre ++ post) :
    (s'.freed x).SearchTree t' ∧ (s'.freed x).Holds t' (Function.update m (s.keyAt x) none) := by
  have nodup := st.nodup
  have sorted := st.sorted
  rw [split] at nodup sorted
  have others : ∀ y ∈ pre ++ post, y ≠ x := by
    rintro y member rfl
    exact (List.nodup_cons.mp (List.nodup_middle.mp nodup)).1 member
  have fields : ∀ y ∈ pre ++ post, (s'.freed x).keyAt y = s.keyAt y ∧ (s'.freed x).recordAt y = s.recordAt y := by
    intro y member
    have same := (freed_ne (s := s') (others y member)).2
    rwa [keyAt_congr rests, recordAt_congr rests] at same
  have members : ∀ y, y ∈ inorder t ↔ y = x ∨ y ∈ pre ++ post := fun y => by
    rw [split, List.mem_append, List.mem_cons, List.mem_append]
    tauto
  -- no other node has the key
  have unique : ∀ y ∈ pre ++ post, s.keyAt y ≠ s.keyAt x := by
    intro y member
    rw [List.pairwise_append, List.pairwise_cons] at sorted
    obtain inPre | inPost := List.mem_append.mp member
    · exact (sorted.2.2 y inPre x (List.mem_cons_self ..)).ne
    · exact (sorted.2.1.1 y inPost).ne'
  refine ⟨⟨⟨?_, ?_, ?_⟩, ?_, ?_⟩, ?_⟩
  · exact tree.congr fun y member => (freed_ne (others y (order ▸ member))).1
  · rw [order]
    exact (List.nodup_cons.mp (List.nodup_middle.mp nodup)).2
  · intro y
    rw [order]
    refine mem_erased.trans ?_
    rw [mem_congr rests, st.live, members]
    exact ⟨fun both => both.2.resolve_left both.1, fun member => ⟨others y member, .inr member⟩⟩
  · rw [order]
    have rest : (pre ++ post).Pairwise (s.keyAt · < s.keyAt ·) :=
      sorted.sublist ((List.sublist_cons_self x post).append_left pre)
    refine rest.imp_of_mem fun a b less => ?_
    rwa [(fields _ a).1, (fields _ b).1]
  · have same : s'.nodeCount = s.nodeCount := congrArg (fun rest => rest.2.1) rests
    refine toNat_sub_one ?_
    rw [same, st.count, split, order]
    simp only [List.length_append, List.length_cons]
    rfl
  · intro j r
    rw [order]
    by_cases here : j = s.keyAt x
    · subst here
      rw [Function.update_self]
      constructor
      · intro bound
        cases bound
      · rintro ⟨y, member, isKey, -⟩
        rw [(fields y member).1] at isKey
        exact absurd isKey (unique y member)
    · rw [Function.update_of_ne here, holds]
      constructor
      · rintro ⟨y, member, same⟩
        have member := ((members y).mp member).resolve_left (by rintro rfl; exact here same.1.symm)
        exact ⟨y, member, by rwa [(fields y member).1, (fields y member).2]⟩
      · rintro ⟨y, member, same⟩
        exact ⟨y, (members y).mpr (.inr member), by rwa [(fields y member).1, (fields y member).2] at same⟩

/-- `tree_remove` -/
theorem SearchTree.remove (st : s.SearchTree t) (holds : s.Holds t m) (k : Int) :
    (m k = none ∧ ∃ count, s.treeRemove k = some (0, { s with comparisonCount := count })) ∨
    ∃ r s' t', m k = some r ∧ s.treeRemove k = some (r, s') ∧ s'.SearchTree t' ∧
      s'.Holds t' (Function.update m k none) := by
  obtain ⟨count, search⟩ : ∃ count, s.removeFrom k (s.nodes.entries.length + 1) s.root s.comparisonCount =
      some (top (locate s.keyAt k [] t).2, count) :=
    removeFrom_eq [] st.tree (fun x member => (st.live x).mpr member) st.enough
  obtain ⟨path, located⟩ | ⟨path, x, l, r, located, isKey⟩ := st.located k
  · refine .inl ⟨located.miss holds, count, ?_⟩
    rw [located.eq] at search
    rw [treeRemove, search]
    rfl
  · have real : x ≠ 0 := st.tree.ne_null x located.mem
    have st₁ := st.recount count
    obtain ⟨s₁, l', r', step₁, rep₁, order₁, rest₁⟩ := st₁.toRepresents.splay located.mem
    obtain ⟨s₂, t', step₂, tree₂, order₂, rest₂⟩ := rep₁.unhook
    have rests := rest₂.trans rest₁
    have record : s₂.record x = some (s.recordAt x) := by
      rw [record_eq ((mem_congr rests).mpr ((st₁.live x).mpr located.mem)), recordAt_congr rests]
      rfl
    obtain ⟨st₂, holds₂⟩ := st₁.freed holds order₁.symm rests tree₂ order₂
    refine .inr ⟨s.recordAt x, s₂.freed x, t', located.hit isKey holds, ?_, st₂, isKey ▸ holds₂⟩
    rw [located.eq] at search
    rw [treeRemove, search]
    simp only [Option.bind_eq_bind, Option.bind_some, top, if_neg real, step₁, step₂, record]
    rfl

/-! ## Runs -/

inductive Call where
  /-- `z` is the address that `malloc` answers -/
  | insert (key : Int) (record z : Addr)
  | remove (key : Int)
  | find (key : Int)
  | findNearest (key : Int)
deriving DecidableEq, Repr

inductive Answer where
  | inserted (new : Bool)
  | record (r : Addr)
deriving DecidableEq, Repr

def apply (s : SplayTree) : Call → Option (Answer × SplayTree)
  | .insert key record z => (s.treeInsert key record z).map (Prod.map .inserted id)
  | .remove key => (s.treeRemove key).map (Prod.map .record id)
  | .find key => (s.treeFind key).map (Prod.map .record id)
  | .findNearest key => (s.treeFindNearest key).map (Prod.map .record id)

/-- `malloc` answers an address that is not in use. -/
def Allocates (s : SplayTree) : Call → Prop
  | .insert _ _ z => z ≠ 0 ∧ z ∉ s.nodes
  | _ => True

instance (s : SplayTree) (c : Call) : Decidable (s.Allocates c) := by
  cases c <;> unfold Allocates <;> infer_instance

def Step (s : SplayTree) (c : Call) (s' : SplayTree) : Prop :=
  s.Allocates c ∧ (s.apply c).map Prod.snd = some s'

/-- What a call does to the map. -/
def Contents.after (m : Contents) : Call → Contents
  | .insert key record _ => if m key = none then Function.update m key (some record) else m
  | .remove key => Function.update m key none
  | _ => m

/-- What a call answers. -/
def Contents.Answers (m : Contents) : Call → Answer → Prop
  | .insert key _ _, answer => answer = .inserted (m key).isNone
  | .remove key, answer => answer = .record ((m key).getD 0)
  | .find key, answer => answer = .record ((m key).getD 0)
  | .findNearest key, answer => ∃ r, answer = .record r ∧ Nearest m key r

/-- The tree is well formed and holds the bindings of the map. -/
def Implements (s : SplayTree) (m : Contents) : Prop := ∃ t, s.SearchTree t ∧ s.Holds t m

theorem implements_treeNew : treeNew.Implements fun _ => none := by
  refine ⟨.nil, ⟨⟨rfl, List.nodup_nil, fun x => ?_⟩, List.Pairwise.nil, rfl⟩, fun k r => ?_⟩
  · exact ⟨fun member => absurd member (AList.notMem_empty x), fun member => absurd member List.not_mem_nil⟩
  · simp [inorder]

/-- **A call** answers as the map says and keeps the tree and the map together. -/
theorem Implements.apply {c : Call} (implements : s.Implements m) (allocates : s.Allocates c) :
    ∃ answer s', s.apply c = some (answer, s') ∧ m.Answers c answer ∧ s'.Implements (m.after c) := by
  obtain ⟨t, st, holds⟩ := implements
  cases c with
  | insert key record z =>
      obtain ⟨present, count, step⟩ | ⟨absent, s', t', step, st', holds'⟩ :=
        st.insert holds key record allocates.1 allocates.2
      · refine ⟨_, _, by rw [SplayTree.apply, step]; rfl, ?_, t, st.recount count, ?_⟩
        · cases bound : m key with
          | none => exact absurd bound present
          | some r => simp [Contents.Answers, bound]
        · rw [Contents.after, if_neg present]
          exact holds
      · refine ⟨_, _, by rw [SplayTree.apply, step]; rfl, ?_, t', st', ?_⟩
        · simp [Contents.Answers, absent]
        · rw [Contents.after, if_pos absent]
          exact holds'
  | remove key =>
      obtain ⟨absent, count, step⟩ | ⟨r, s', t', bound, step, st', holds'⟩ := st.remove holds key
      · refine ⟨_, _, by rw [SplayTree.apply, step]; rfl, ?_, t, st.recount count, ?_⟩
        · simp [Contents.Answers, absent]
        · rw [Contents.after, ← absent, Function.update_eq_self]
          exact holds
      · refine ⟨_, _, by rw [SplayTree.apply, step]; rfl, ?_, t', st', holds'⟩
        simp [Contents.Answers, bound]
  | find key =>
      obtain ⟨count, step⟩ := st.find holds key
      exact ⟨_, _, by rw [SplayTree.apply, step]; rfl, rfl, t, st.recount count, holds⟩
  | findNearest key =>
      obtain ⟨r, count, step, nearest⟩ := st.findNearest holds key
      exact ⟨_, _, by rw [SplayTree.apply, step]; rfl, ⟨r, rfl, nearest⟩, t, st.recount count, holds⟩

/-- The map that the calls describe. -/
def contents (calls : List Call) : Contents := calls.foldl Contents.after fun _ => none

theorem Implements.run {calls : List Call} (run : Run Step treeNew calls s) : s.Implements (contents calls) := by
  refine run.simulates Implements implements_treeNew fun s m c s' implements step => ?_
  obtain ⟨allocates, returned⟩ := step
  obtain ⟨answer, s₁, applied, -, implements'⟩ := implements.apply allocates
  rw [applied] at returned
  exact Option.some.inj returned ▸ implements'

/-- **The splay tree is a finite map.**  After any calls it is a search tree with consistent
parent pointers whose nodes `node_count` counts and which holds the bindings that the calls
describe; every further call returns, with the answer of the map and the map it describes;
and the splay loop ends with the given node at the root and the order unchanged. -/
theorem tree_implements_map {calls : List Call} (run : Run Step treeNew calls s) :
    s.Implements (contents calls) ∧
    (∀ c, s.Allocates c → ∃ answer s', s.apply c = some (answer, s') ∧ (contents calls).Answers c answer ∧
      s'.Implements ((contents calls).after c)) ∧
    ∀ t, s.SearchTree t → ∀ x ∈ s.nodes, ∃ s' t', s.splay x = some s' ∧ s'.SearchTree t' ∧ s'.root = x ∧
      inorder t' = inorder t ∧ s'.rest = s.rest := by
  have implements := Implements.run run
  refine ⟨implements, fun c allocates => implements.apply allocates, fun t st x live => ?_⟩
  obtain ⟨s', l, r, step, rep, order, rest'⟩ := st.toRepresents.splay ((st.live x).mp live)
  refine ⟨s', .node x l r, step, ⟨rep, ?_, ?_⟩, rep.tree.1, order, rest'⟩
  · rw [order, keyAt_congr rest']
    exact st.sorted
  · have same : s'.nodeCount = s.nodeCount := congrArg (fun rest => rest.2.1) rest'
    rw [order, same]
    exact st.count

def someCalls : List Call :=
  [.insert 5 100 1, .insert 3 101 2, .insert 8 102 3, .insert 3 103 4, .insert 6 104 5, .remove 5, .findNearest 7]

theorem tree_implements_map_some : ∃ s, Run Step treeNew someCalls s ∧ s.Implements (contents someCalls) ∧
    (s.treeFindNearest 7).map Prod.fst = some 104 := by
  obtain ⟨s, computed⟩ : ∃ s, someCalls.foldlM
      (fun s c => if s.Allocates c then (s.apply c).map Prod.snd else none) treeNew = some s := ⟨_, rfl⟩
  have run : Run Step treeNew someCalls s := Run.of_guarded computed
  exact ⟨s, run, (tree_implements_map run).1, by cases computed; rfl⟩

end SplayTree

end SystemsLabs.Driver
