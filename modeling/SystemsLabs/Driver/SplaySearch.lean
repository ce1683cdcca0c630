/-
# SystemsLabs.Driver.SplaySearch -- the searches of the splay tree

`SearchTree s t` is the invariant of `stree.c`: the nodes make up the tree `t`, in the order
of their keys, and `node_count` counts them.  The loops of `tree_find`, `tree_find_nearest`
and `tree_remove` follow `locate` of `Theory.LinkedTree`, and `Located` is where they end.
`Holds s t m` says that the nodes hold the bindings of the map `m`; `tree_find` and
`tree_find_nearest` answer as the map says.
-/
import Mathlib.Order.Bounds.Basic
import SystemsLabs.Driver.SplayLinks
import SystemsLabs.Theory.PointerPath

namespace SystemsLabs.Driver

set_option autoImplicit false

open Theory.LinkedTree

namespace SplayTree

/-! ## Keys and records -/

def keyAt (s : SplayTree) (x : Addr) : Int := ((s.rest.1 x).map Prod.fst).getD 0

def recordAt (s : SplayTree) (x : Addr) : Addr := ((s.rest.1 x).map Prod.snd).getD 0

variable {s s' : SplayTree} {d : Side} {x y z p par u v : Addr} {k : Int} {fuel : Nat} {count : UInt64}
  {path : Path Addr} {l r t : BinaryTree Addr}

theorem keyAt_congr (same : s'.rest = s.rest) : s'.keyAt = s.keyAt := by
  funext x
  rw [keyAt, keyAt, same]

theorem recordAt_congr (same : s'.rest = s.rest) : s'.recordAt = s.recordAt := by
  funext x
  rw [recordAt, recordAt, same]

theorem exists_fields (live : x ∈ s.nodes) : ∃ n, s.nodes.lookup x = some n ∧ n.key = s.keyAt x ∧
    n.record = s.recordAt x ∧ ∀ d, n.child d = s.links.child d x := by
  obtain ⟨n, found⟩ := exists_lookup live
  exact ⟨n, found, by simp [keyAt, rest, found], by simp [recordAt, rest, found], by simp [links, found]⟩

theorem key_eq (live : x ∈ s.nodes) : s.key x = some (s.keyAt x) := by
  obtain ⟨n, found, isKey, -⟩ := exists_fields live
  rw [key, found, Option.map_some, isKey]

theorem record_eq (live : x ∈ s.nodes) : s.record x = some (s.recordAt x) := by
  obtain ⟨n, found, -, isRecord, -⟩ := exists_fields live
  rw [record, found, Option.map_some, isRecord]

/-- The invariant. -/
structure SearchTree (s : SplayTree) (t : BinaryTree Addr) : Prop extends s.Represents t where
  sorted : (inorder t).Pairwise (s.keyAt · < s.keyAt ·)
  count : s.nodeCount.toNat = (inorder t).length

/-! ## Searches -/

/-- The root of a tree, or `NULL`. -/
def top : BinaryTree Addr → Addr
  | .nil => 0
  | .node x _ _ => x

/-- The last node of a path, or `NULL`. -/
def tip : Path Addr → Addr
  | [] => 0
  | f :: _ => f.node

/-- One step of the searches. -/
theorem descend_eq {n : TreeNode} (isKey : n.key = s.keyAt x) (children : ∀ d, n.child d = s.links.child d x) :
    n.descend k = s.links.child (if s.keyAt x < k then .right else .left) x := by
  rw [TreeNode.descend, isKey]
  split
  · exact children .right
  · exact children .left

theorem searchFrom_eq (path : Path Addr) (tree : s.links.Tree 0 t z par) (live : ∀ x ∈ inorder t, x ∈ s.nodes)
    (enough : (inorder t).length < fuel) :
    ∃ p count', s.searchFrom k fuel z (tip path) count = some (top (locate s.keyAt k path t).2, p, count') ∧
      ((locate s.keyAt k path t).2 = .nil → p = tip (locate s.keyAt k path t).1) := by
  induction t generalizing path z par fuel count with
  | nil =>
      obtain ⟨fuel, rfl⟩ : ∃ n, fuel = n + 1 := Nat.exists_eq_succ_of_ne_zero (by omega)
      obtain rfl : z = 0 := tree
      exact ⟨_, count, by simp [searchFrom, locate, top], fun _ => rfl⟩
  | node x l r ihl ihr =>
      obtain ⟨fuel, rfl⟩ : ∃ n, fuel = n + 1 := Nat.exists_eq_succ_of_ne_zero (by omega)
      obtain ⟨rfl, real, -, left, right⟩ := tree
      obtain ⟨n, found, isKey, -, children⟩ := exists_fields (live z (by simp [inorder]))
      simp only [inorder, List.length_append, List.length_cons] at enough
      simp only [searchFrom, if_neg real, found, Option.bind_eq_bind, Option.bind_some, isKey,
        descend_eq isKey children, locate]
      split
      · exact ⟨z, count + 1, rfl, by simp⟩
      · split
        · exact ihr (⟨.right, z, l⟩ :: path) right (fun y m => live y (by simp [inorder, m])) (by omega)
        · exact ihl (⟨.left, z, r⟩ :: path) left (fun y m => live y (by simp [inorder, m])) (by omega)

theorem removeFrom_eq (path : Path Addr) (tree : s.links.Tree 0 t z par) (live : ∀ x ∈ inorder t, x ∈ s.nodes)
    (enough : (inorder t).length < fuel) :
    ∃ count', s.removeFrom k fuel z count = some (top (locate s.keyAt k path t).2, count') := by
  induction t generalizing path z par fuel count with
  | nil =>
      obtain ⟨fuel, rfl⟩ : ∃ n, fuel = n + 1 := Nat.exists_eq_succ_of_ne_zero (by omega)
      obtain rfl : z = 0 := tree
      exact ⟨count, by simp [removeFrom, locate, top]⟩
  | node x l r ihl ihr =>
      obtain ⟨fuel, rfl⟩ : ∃ n, fuel = n + 1 := Nat.exists_eq_succ_of_ne_zero (by omega)
      obtain ⟨rfl, real, -, left, right⟩ := tree
      obtain ⟨n, found, isKey, -, children⟩ := exists_fields (live z (by simp [inorder]))
      simp only [inorder, List.length_append, List.length_cons] at enough
      simp only [removeFrom, if_neg real, found, Option.bind_eq_bind, Option.bind_some, isKey,
        descend_eq isKey children, locate, eq_comm (a := s.keyAt z)]
      split
      · exact ⟨count, rfl⟩
      · split
        · exact ihr (⟨.right, z, l⟩ :: path) right (fun y m => live y (by simp [inorder, m])) (by omega)
        · exact ihl (⟨.left, z, r⟩ :: path) left (fun y m => live y (by simp [inorder, m])) (by omega)

/-- The candidate of `tree_find_nearest` is the last node before the subtree. -/
theorem nearestFrom_eq (path : Path Addr) (count : UInt64) (tree : s.links.Tree 0 t z par) (live : ∀ x ∈ inorder (plug path t), x ∈ s.nodes)
    (sorted : (inorder (plug path t)).Pairwise (s.keyAt · < s.keyAt ·)) (enough : (inorder t).length < fuel) :
    ∃ count', s.nearestFrom k fuel z ((before path).getLastD 0) count =
      some (if (locate s.keyAt k path t).2 = .nil then (before (locate s.keyAt k path t).1).getLastD 0
        else top (locate s.keyAt k path t).2, count') := by
  induction t generalizing path z par fuel count with
  | nil =>
      obtain ⟨fuel, rfl⟩ : ∃ n, fuel = n + 1 := Nat.exists_eq_succ_of_ne_zero (by omega)
      obtain rfl : z = 0 := tree
      exact ⟨count, by simp [nearestFrom, locate]⟩
  | node x l r ihl ihr =>
      obtain ⟨fuel, rfl⟩ : ∃ n, fuel = n + 1 := Nat.exists_eq_succ_of_ne_zero (by omega)
      obtain ⟨rfl, real, -, left, right⟩ := tree
      have inTree : ∀ y ∈ before path ++ [z], y ∈ inorder (plug path (.node z l r)) := by
        intro y member
        rw [inorder_plug, inorder]
        simp only [List.mem_append, List.mem_cons, List.not_mem_nil, or_false] at member ⊢
        tauto
      obtain ⟨n, found, isKey, -, children⟩ := exists_fields (live z (inTree z (by simp)))
      simp only [inorder, List.length_append, List.length_cons] at enough
      simp only [nearestFrom, if_neg real, found, Option.bind_eq_bind, Option.bind_some, isKey, locate, gt_iff_lt]
      split
      · exact ⟨count + 1, by simp [top]⟩
      · split
        · -- the earlier candidates have smaller keys
          have better : (if (before path).getLastD 0 = 0 then some true
              else (s.key ((before path).getLastD 0)).map fun k => decide (k < s.keyAt z)) = some true := by
            rcases List.eq_nil_or_concat' (before path) with atRoot | ⟨front, q, concat⟩
            · simp [atRoot]
            · have inBefore : q ∈ before path := by simp [concat]
              have live := live q (inTree q (List.mem_append_left _ inBefore))
              rw [inorder_plug, List.pairwise_append, List.pairwise_append] at sorted
              have smaller : s.keyAt q < s.keyAt z := sorted.1.2.2 q inBefore z (by simp [inorder])
              rw [concat, List.getLastD_concat]
              split
              · rfl
              · rw [key_eq live, Option.map_some, decide_eq_true smaller]
          rw [better, Option.bind_some, if_pos rfl, show n.right = s.links.child .right z from children .right]
          have last : (before (⟨.right, z, l⟩ :: path)).getLastD 0 = z := by simp [before]
          have next := ihr (⟨.right, z, l⟩ :: path) (count + 2) right live sorted (show (inorder r).length < fuel by omega)
          rwa [last] at next
        · rw [show n.left = s.links.child .left z from children .left]
          exact ihl (⟨.left, z, r⟩ :: path) _ left live sorted (by omega)

/-! ## The map -/

/-- What the keys are bound to. -/
abbrev Contents := Int → Option Addr

/-- The tree holds the bindings. -/
def Holds (s : SplayTree) (t : BinaryTree Addr) (m : Contents) : Prop :=
  ∀ k r, m k = some r ↔ ∃ x ∈ inorder t, s.keyAt x = k ∧ s.recordAt x = r

variable {m : Contents}

/-- Where a key is, or where it belongs. -/
structure Located (s : SplayTree) (t : BinaryTree Addr) (k : Int) (path : Path Addr) (t' : BinaryTree Addr) :
    Prop where
  eq : locate s.keyAt k [] t = (path, t')
  whole : plug path t' = t
  below : ∀ y ∈ before path, s.keyAt y < k
  above : ∀ y ∈ after path, k < s.keyAt y

theorem SearchTree.located (st : s.SearchTree t) (k : Int) :
    (∃ path, Located s t k path .nil) ∨ ∃ path x l r, Located s t k path (.node x l r) ∧ s.keyAt x = k := by
  have plugs := locate_plug s.keyAt k [] t
  have bounds := locate_bounds s.keyAt k [] t st.sorted (by simp [before])
    (by simp [after])
  obtain miss | ⟨x, l, r, hit, isKey⟩ := locate_hit s.keyAt k [] t
  · rw [miss] at plugs
    exact .inl ⟨_, Prod.ext rfl miss, plugs, bounds.1, bounds.2⟩
  · rw [hit] at plugs
    exact .inr ⟨_, x, l, r, ⟨Prod.ext rfl hit, plugs, bounds.1, bounds.2⟩, isKey⟩

theorem Located.miss (located : Located s t k path .nil) (holds : s.Holds t m) : m k = none := by
  rw [Option.eq_none_iff_forall_not_mem]
  intro r bound
  obtain ⟨x, member, isKey, -⟩ := (holds k r).mp bound
  rw [← located.whole, inorder_plug] at member
  simp only [inorder, List.append_nil, List.mem_append] at member
  obtain member | member := member
  · exact absurd isKey (located.below x member).ne
  · exact absurd isKey (located.above x member).ne'

theorem Located.mem (located : Located s t k path (.node x l r)) : x ∈ inorder t := by
  rw [← located.whole]
  simp [mem_plug, inorder]

theorem Located.hit (located : Located s t k path (.node x l r)) (isKey : s.keyAt x = k) (holds : s.Holds t m) :
    m k = some (s.recordAt x) :=
  (holds k _).mpr ⟨x, located.mem, isKey, rfl⟩

/-- A comparison changes only the count. -/
theorem SearchTree.recount (st : s.SearchTree t) (count : UInt64) :
    SearchTree { s with comparisonCount := count } t :=
  ⟨⟨st.tree, st.nodup, st.live⟩, st.sorted, st.count⟩

theorem SearchTree.enough (st : s.SearchTree t) : (inorder t).length < s.nodes.entries.length + 1 := by
  rw [st.length_eq]
  omega

theorem SearchTree.search (st : s.SearchTree t) (k : Int) :
    ∃ p count, s.searchFrom k (s.nodes.entries.length + 1) s.root 0 s.comparisonCount =
        some (top (locate s.keyAt k [] t).2, p, count) ∧
      ((locate s.keyAt k [] t).2 = .nil → p = tip (locate s.keyAt k [] t).1) :=
  searchFrom_eq [] st.tree (fun x member => (st.live x).mpr member) st.enough

/-- `tree_find` -/
theorem SearchTree.find (st : s.SearchTree t) (holds : s.Holds t m) (k : Int) :
    ∃ count, s.treeFind k = some ((m k).getD 0, { s with comparisonCount := count }) := by
  obtain ⟨p, count, search, -⟩ := st.search k
  refine ⟨count, ?_⟩
  rw [treeFind, search, Option.bind_eq_bind, Option.bind_some]
  obtain ⟨path, located⟩ | ⟨path, x, l, r, located, isKey⟩ := st.located k
  · rw [located.miss holds, located.eq]
    rfl
  · have real : x ≠ 0 := st.tree.ne_null x located.mem
    have record := record_eq (s := { s with comparisonCount := count }) ((st.live x).mpr located.mem)
    rw [located.hit isKey holds, located.eq]
    simp only [top, if_neg real, record]
    rfl

/-- The record of the largest key that is not above `k`, or `NULL`. -/
def Nearest (m : Contents) (k : Int) (r : Addr) : Prop :=
  (∃ j, IsGreatest {j | j ≤ k ∧ m j ≠ none} j ∧ m j = some r) ∨ (∀ j ≤ k, m j = none) ∧ r = 0

theorem Holds.exists_node (holds : s.Holds t m) (bound : m k ≠ none) : ∃ x ∈ inorder t, s.keyAt x = k := by
  obtain ⟨r, bound⟩ := Option.ne_none_iff_exists'.mp bound
  obtain ⟨x, member, isKey, -⟩ := (holds k r).mp bound
  exact ⟨x, member, isKey⟩

/-- The last node before where a key belongs is the nearest. -/
theorem Located.nearest (located : Located s t k path .nil) (st : s.SearchTree t) (holds : s.Holds t m) :
    Nearest m k (if (before path).getLastD 0 = 0 then 0 else s.recordAt ((before path).getLastD 0)) := by
  have split : inorder t = before path ++ after path := by
    rw [← located.whole, inorder_plug]
    simp [inorder]
  have notAfter : ∀ j ≤ k, m j ≠ none → ∃ x ∈ before path, s.keyAt x = j := by
    intro j le bound
    obtain ⟨x, member, rfl⟩ := holds.exists_node bound
    rw [split, List.mem_append] at member
    exact ⟨x, member.resolve_right fun inAfter => absurd (located.above x inAfter) (not_lt.mpr le), rfl⟩
  rcases List.eq_nil_or_concat' (before path) with atRoot | ⟨front, q, concat⟩
  · refine .inr ⟨fun j le => ?_, by simp [atRoot]⟩
    by_contra bound
    obtain ⟨x, member, -⟩ := notAfter j le bound
    simp [atRoot] at member
  · have inBefore : q ∈ before path := by simp [concat]
    have inTree : q ∈ inorder t := split ▸ List.mem_append_left _ inBefore
    have bound : m (s.keyAt q) = some (s.recordAt q) := (holds _ _).mpr ⟨q, inTree, rfl, rfl⟩
    rw [concat, List.getLastD_concat, if_neg (st.tree.ne_null q inTree)]
    refine .inl ⟨s.keyAt q, ⟨⟨(located.below q inBefore).le, by simp [bound]⟩, ?_⟩, bound⟩
    rintro j ⟨le, bound⟩
    obtain ⟨x, member, rfl⟩ := notAfter j le bound
    have sorted := st.sorted
    rw [split, concat, List.pairwise_append, List.pairwise_append] at sorted
    rw [concat, List.mem_append, List.mem_singleton] at member
    obtain member | rfl := member
    · exact (sorted.1.2.2 x member q (by simp)).le
    · exact le_rfl

/-- `tree_find_nearest` -/
theorem SearchTree.findNearest (st : s.SearchTree t) (holds : s.Holds t m) (k : Int) :
    ∃ r count, s.treeFindNearest k = some (r, { s with comparisonCount := count }) ∧ Nearest m k r := by
  obtain ⟨count, search⟩ : ∃ count, s.nearestFrom k (s.nodes.entries.length + 1) s.root 0 s.comparisonCount =
      some (if (locate s.keyAt k [] t).2 = .nil then (before (locate s.keyAt k [] t).1).getLastD 0
        else top (locate s.keyAt k [] t).2, count) :=
    nearestFrom_eq [] _ st.tree (fun x member => (st.live x).mpr member) st.sorted st.enough
  rw [treeFindNearest, search, Option.bind_eq_bind, Option.bind_some]
  obtain ⟨path, located⟩ | ⟨path, x, l, r, located, isKey⟩ := st.located k
  · refine ⟨_, count, ?_, located.nearest st holds⟩
    rw [located.eq]
    simp only [if_true]
    split
    · rfl
    · next real =>
      have inTree : (before path).getLastD 0 ∈ inorder t := by
        rw [← located.whole, inorder_plug, List.append_assoc]
        exact List.mem_append_left _ (Theory.PointerPath.getLastD_mem real)
      have record := record_eq (s := { s with comparisonCount := count }) ((st.live _).mpr inTree)
      rw [record]
      rfl
  · have real : x ≠ 0 := st.tree.ne_null x located.mem
    have record := record_eq (s := { s with comparisonCount := count }) ((st.live x).mpr located.mem)
    refine ⟨s.recordAt x, count, ?_, .inl ⟨k, ⟨⟨le_rfl, by simp [located.hit isKey holds]⟩, fun j bound => bound.1⟩,
      located.hit isKey holds⟩⟩
    rw [located.eq]
    simp only [top, if_neg real, record, reduceCtorEq, if_false]
    rfl

end SplayTree

end SystemsLabs.Driver
