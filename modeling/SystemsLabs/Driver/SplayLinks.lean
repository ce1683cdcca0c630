/-
# SystemsLabs.Driver.SplayLinks -- the splay tree as linked nodes

`s.links` are the links of the live nodes and `s.rest` is all that the rotations do not
touch.  `Edit s ran L` says that `ran` returns with the links `L` and the same rest: each
assignment of `stree.c` to live nodes is the edit of `Theory.LinkedTree` with its name.

`Represents s t` says that the nodes of `s` are those of the tree `t`, linked as in `t`.
`Represents.splay`: the splay loop ends, with the node at the root and the order kept; each
pass brings the node one or two frames up.
-/
import SystemsLabs.Driver.SplayTree

namespace SystemsLabs.Driver

set_option autoImplicit false

open Theory.LinkedTree

namespace SplayTree

/-! ## Edits of live nodes -/

def links (s : SplayTree) : Links Addr where
  child d x := ((s.nodes.lookup x).map (·.child d)).getD 0
  parent x := ((s.nodes.lookup x).map (·.parent)).getD 0
  root := s.root

/-- The keys and records of the live nodes, and the counters. -/
def rest (s : SplayTree) : (Addr → Option (Int × Addr)) × UInt64 × UInt64 :=
  (fun x => (s.nodes.lookup x).map fun n => (n.key, n.record), s.nodeCount, s.comparisonCount)

variable {s s' : SplayTree} {d : Side} {x y p u v : Addr}

theorem mem_iff_rest : x ∈ s.nodes ↔ (s.rest.1 x).isSome := by
  rw [rest, Option.isSome_map, AList.lookup_isSome]

theorem mem_congr (same : s'.rest = s.rest) : x ∈ s'.nodes ↔ x ∈ s.nodes := by
  rw [mem_iff_rest, mem_iff_rest, same]

theorem exists_lookup (live : x ∈ s.nodes) : ∃ n, s.nodes.lookup x = some n :=
  Option.isSome_iff_exists.mp (AList.lookup_isSome.mpr live)

theorem child_eq (live : x ∈ s.nodes) (d : Side) : s.child d x = some (s.links.child d x) := by
  obtain ⟨n, found⟩ := exists_lookup live
  simp [child, links, found]

theorem parent_eq (live : x ∈ s.nodes) : s.parent x = some (s.links.parent x) := by
  obtain ⟨n, found⟩ := exists_lookup live
  simp [parent, links, found]

/-- The computation returns with the links `L`, and the rest is that of `s`. -/
def Edit (s : SplayTree) (ran : Option SplayTree) (L : Links Addr) : Prop :=
  ∃ s', ran = some s' ∧ s'.links = L ∧ s'.rest = s.rest

theorem Edit.refl (s : SplayTree) : Edit s (some s) s.links := ⟨s, rfl, rfl, rfl⟩

/-- Edits compose. -/
theorem Edit.bind {ran : Option SplayTree} {k : SplayTree → Option SplayTree} {L L' : Links Addr}
    (first : Edit s ran L) (next : ∀ s', s'.links = L → s'.rest = s.rest → Edit s' (k s') L') :
    Edit s (ran >>= k) L' := by
  obtain ⟨s₁, rfl, links₁, rest₁⟩ := first
  obtain ⟨s₂, step, links₂, rest₂⟩ := next s₁ links₁ rest₁
  exact ⟨s₂, step, links₂, rest₂.trans rest₁⟩

theorem TreeNode.child_setChild (n : TreeNode) (p : Addr) (d e : Side) :
    (n.setChild p d).child e = if e = d then p else n.child e := by
  cases d <;> cases e <;> rfl

theorem edit_setChild (live : x ∈ s.nodes) (d : Side) (p : Addr) :
    Edit s (s.setChild d x p) (s.links.setChild d x p) := by
  obtain ⟨n, found⟩ := exists_lookup live
  refine ⟨_, by rw [setChild, found]; rfl, ?_, ?_⟩
  · simp only [links, Links.setChild, Links.mk.injEq]
    refine ⟨?_, ?_, trivial⟩
    · funext e y
      by_cases same : y = x
      · subst same
        simp [found, TreeNode.child_setChild]
      · simp [AList.lookup_insert_ne same, same]
    · funext y
      by_cases same : y = x
      · subst same
        cases d <;> simp [found, TreeNode.setChild]
      · simp [AList.lookup_insert_ne same]
  · rw [rest, rest, Prod.mk.injEq]
    refine ⟨?_, rfl⟩
    funext y
    by_cases same : y = x
    · subst same
      cases d <;> simp [found, TreeNode.setChild]
    · simp [AList.lookup_insert_ne same]

theorem edit_setParent (live : x ∈ s.nodes) (p : Addr) : Edit s (s.setParent x p) (s.links.setParent x p) := by
  obtain ⟨n, found⟩ := exists_lookup live
  refine ⟨_, by rw [setParent, found]; rfl, ?_, ?_⟩
  · simp only [links, Links.setParent, Links.mk.injEq]
    refine ⟨?_, ?_, trivial⟩
    · funext e y
      by_cases same : y = x
      · subst same
        cases e <;> simp [found, TreeNode.child]
      · simp [AList.lookup_insert_ne same]
    · funext y
      by_cases same : y = x
      · subst same
        simp
      · simp [AList.lookup_insert_ne same, same]
  · rw [rest, rest, Prod.mk.injEq]
    refine ⟨?_, rfl⟩
    funext y
    by_cases same : y = x
    · subst same
      simp [found]
    · simp [AList.lookup_insert_ne same]

theorem edit_relink (live : u ∈ s.nodes) (liveParent : s.links.parent u ≠ 0 → s.links.parent u ∈ s.nodes)
    (v : Addr) : Edit s (s.relink u v) (s.links.relink 0 u v) := by
  rw [relink, parent_eq live, Links.relink, Option.bind_eq_bind, Option.bind_some]
  split
  · exact ⟨_, rfl, rfl, rfl⟩
  · next real =>
    have liveParent := liveParent real
    rw [child_eq liveParent, Option.bind_some]
    split
    · exact edit_setChild liveParent _ _
    · exact edit_setChild liveParent _ _

theorem edit_handOver (live : x ∈ s.nodes) (liveChild : s.links.child d x ∈ s.nodes)
    (liveInner : s.links.child d.flip (s.links.child d x) ≠ 0 →
      s.links.child d.flip (s.links.child d x) ∈ s.nodes)
    (other : s.links.child d x ≠ x) (off : s.links.child d.flip (s.links.child d x) ≠ x) :
    Edit s (s.handOver d x (s.links.child d x)) (s.links.handOver 0 d x) := by
  rw [handOver, child_eq liveChild, Option.bind_eq_bind, Option.bind_some]
  refine (edit_setChild live _ _).bind fun s₁ links₁ rest₁ => ?_
  rw [child_eq ((mem_congr rest₁).mpr liveChild), links₁, Links.setChild_child_ne other, Option.bind_eq_bind,
    Option.bind_some]
  have inner : Edit s₁ (if s.links.child d.flip (s.links.child d x) = 0 then some s₁
        else s₁.setParent (s.links.child d.flip (s.links.child d x)) x)
      (if s.links.child d.flip (s.links.child d x) = 0 then s.links.setChild d x (s.links.child d.flip (s.links.child d x))
        else (s.links.setChild d x (s.links.child d.flip (s.links.child d x))).setParent
          (s.links.child d.flip (s.links.child d x)) x) := by
    split
    · exact links₁ ▸ Edit.refl s₁
    · next real => exact links₁ ▸ edit_setParent ((mem_congr rest₁).mpr (liveInner real)) _
  refine inner.bind fun s₂ links₂ rest₂ => ?_
  have parent : s₂.links.parent x = s.links.parent x := by
    rw [links₂]
    split
    · rfl
    · rw [Links.setParent_parent_ne (Ne.symm off), Links.setChild_parent]
  rw [parent_eq ((mem_congr (rest₂.trans rest₁)).mpr live), parent, Option.bind_some, Links.handOver, ← links₂]
  exact edit_setParent ((mem_congr (rest₂.trans rest₁)).mpr liveChild) _

theorem edit_rotate (live : x ∈ s.nodes) (liveParent : s.links.parent x ≠ 0 → s.links.parent x ∈ s.nodes)
    (liveChild : s.links.child d x ∈ s.nodes)
    (liveInner : s.links.child d.flip (s.links.child d x) ≠ 0 →
      s.links.child d.flip (s.links.child d x) ∈ s.nodes)
    (real : s.links.child d x ≠ 0) (other : s.links.child d x ≠ x)
    (off : s.links.child d.flip (s.links.child d x) ≠ x) :
    Edit s (rotate d s x) (s.links.rotate 0 d x) := by
  rw [rotate, child_eq live, Option.bind_eq_bind, Option.bind_some]
  simp only [if_neg real]
  refine (edit_handOver live liveChild liveInner other off).bind fun s₁ links₁ rest₁ => ?_
  have parent : s₁.links.parent x = s.links.parent x := by
    rw [links₁]
    exact Links.handOver_parent_ne (Ne.symm other) fun _ => Ne.symm off
  have live₁ := fun y => mem_congr (x := y) rest₁
  refine (edit_relink ((live₁ x).mpr live) ?_ _).bind fun s₂ links₂ rest₂ => ?_
  · rw [parent]
    exact fun real => (live₁ _).mpr (liveParent real)
  have live₂ := fun y => mem_congr (x := y) (rest₂.trans rest₁)
  refine (edit_setChild ((live₂ _).mpr liveChild) _ _).bind fun s₃ links₃ rest₃ => ?_
  have final := edit_setParent (s := s₃) ((mem_congr (rest₃.trans (rest₂.trans rest₁))).mpr live) (s.links.child d x)
  rwa [links₃, links₂, links₁] at final

/-! ## The tree that the nodes make up -/

structure Represents (s : SplayTree) (t : BinaryTree Addr) : Prop where
  tree : s.links.Tree 0 t s.links.root 0
  nodup : (inorder t).Nodup
  live : ∀ x, x ∈ s.nodes ↔ x ∈ inorder t

variable {path : Path Addr} {a b c l r t : BinaryTree Addr} {f g : Frame Addr}

/-- A node and its parent. -/
structure Under (s : SplayTree) (x : Addr) (f : Frame Addr) : Prop where
  live : x ∈ s.nodes
  liveParent : f.node ∈ s.nodes
  parent : s.links.parent x = f.node
  edge : s.links.child f.side f.node = x
  beside : s.links.child f.side.flip f.node ≠ x
  real : f.node ≠ 0

theorem Represents.under (rep : s.Represents (plug (f :: path) (join d x a b))) : s.Under x f := by
  obtain ⟨p, par, hole, subtree⟩ := Links.tree_plug.mp rep.tree
  obtain ⟨rfl, real, rfl, -⟩ := Links.tree_join.mp subtree
  obtain ⟨edge, parent, realParent, sibling, -⟩ := hole
  have inTree : p ∈ inorder (join d p a b) := mem_join.mpr (.inl rfl)
  refine ⟨?_, ?_, parent, edge.symm, ?_, realParent⟩
  · exact (rep.live p).mpr (mem_plug.mpr (.inl inTree))
  · exact (rep.live _).mpr (mem_plug.mpr (.inr (by simp [outside])))
  · intro same
    have inSibling := sibling.mem_of_ne_null (same ▸ real)
    rw [same] at inSibling
    exact not_mem_outside rep.nodup inTree (by simp [outside, inSibling])

/-- The parent of a node is null at the root only. -/
theorem Represents.parent_eq_null (rep : s.Represents (plug path (join d x a b))) :
    s.links.parent x = 0 ↔ path = [] := by
  obtain ⟨p, par, hole, subtree⟩ := Links.tree_plug.mp rep.tree
  obtain ⟨rfl, -, rfl, -⟩ := Links.tree_join.mp subtree
  exact hole.parent_eq_null

theorem Represents.live_at (rep : s.Represents (plug path (join d x a b))) : x ∈ s.nodes :=
  (rep.live x).mpr (mem_plug.mpr (.inl (mem_join.mpr (.inl rfl))))

theorem inorder_plug_rotate (d : Side) (path : Path Addr) (p x : Addr) (a b c : BinaryTree Addr) :
    inorder (plug path (join d x a (join d p b c))) = inorder (plug path (join d p (join d x a b) c)) := by
  rw [inorder_plug, inorder_plug, inorder_rotate]

/-- **A rotation** at the parent of a node brings it one frame up. -/
theorem Represents.rotate (rep : s.Represents (plug (⟨d, p, c⟩ :: path) (join d x a b))) :
    ∃ s', rotate d s p = some s' ∧ s'.Represents (plug path (join d x a (join d p b c))) ∧ s'.rest = s.rest := by
  have under := rep.under
  have whole : s.Represents (plug path (join d p (join d x a b) c)) := rep
  obtain ⟨q, par, hole, subtree⟩ := Links.tree_plug.mp whole.tree
  obtain ⟨-, realP, parentP, treeX, -⟩ := Links.tree_join.mp subtree
  obtain ⟨edge, realX, -, -, treeB⟩ := Links.tree_join.mp treeX
  have mem : ∀ y, y ∈ inorder (join d p (join d x a b) c) ∨ y ∈ outside path → y ∈ s.nodes :=
    fun y member => (whole.live y).mpr (mem_plug.mpr member)
  have inB : ∀ y ∈ inorder b, y ≠ p ∧ y ∈ s.nodes := by
    intro y member
    have below : y ∈ inorder (join d x a b) := mem_join.mpr (.inr (.inr member))
    refine ⟨?_, mem y (.inl (mem_join.mpr (.inr (.inl below))))⟩
    rintro rfl
    exact not_mem_outside rep.nodup below (by simp [outside])
  have other : x ≠ p := by
    rintro rfl
    exact not_mem_outside rep.nodup (mem_join.mpr (.inl rfl)) (by simp [outside])
  obtain ⟨s', step, links', rest'⟩ : Edit s (SplayTree.rotate d s p) (s.links.rotate 0 d p) := by
    apply edit_rotate under.liveParent
    · rw [parentP]
      exact fun real => mem _ (.inr (hole.parent_mem real))
    · rw [edge]
      exact under.live
    · rw [edge]
      exact fun real => (inB _ (treeB.mem_of_ne_null real)).2
    · rwa [edge]
    · rwa [edge]
    · rw [edge]
      intro same
      exact (inB _ (treeB.mem_of_ne_null (same ▸ realP))).1 same
  refine ⟨s', step, ⟨?_, ?_, ?_⟩, rest'⟩
  · rw [links']
    exact whole.tree.rotate whole.nodup
  · rw [inorder_plug_rotate]
    exact whole.nodup
  · intro y
    rw [mem_congr rest', whole.live, inorder_plug_rotate]

/-! ## The splay loop -/

theorem splayStep_zig (under : s.Under x f) (top : s.links.parent f.node = 0) :
    s.splayStep x = SplayTree.rotate f.side s f.node := by
  obtain ⟨side, p, sibling⟩ := f
  have edge := under.edge
  have beside := under.beside
  simp only [splayStep, parent_eq under.live, under.parent, parent_eq under.liveParent, top,
    child_eq under.liveParent, Option.bind_eq_bind, Option.bind_some, if_true]
  cases side with
  | left => exact if_pos edge
  | right => exact if_neg beside

/-- In the branches with a grandparent the sides of the two edges choose the rotations. -/
theorem splayStep_grandparent (under : s.Under x f) (upper : s.Under f.node g) :
    s.splayStep x =
      if f.side = g.side then (SplayTree.rotate g.side s g.node).bind fun s' => (s'.parent x).bind (SplayTree.rotate f.side s')
      else (SplayTree.rotate f.side s f.node).bind fun s' => (s'.parent x).bind (SplayTree.rotate g.side s') := by
  obtain ⟨side, p, sibling⟩ := f
  obtain ⟨side', q, sibling'⟩ := g
  have edge := under.edge
  have beside := under.beside
  have edge' := upper.edge
  have beside' := upper.beside
  simp only [splayStep, parent_eq under.live, under.parent, parent_eq under.liveParent, upper.parent, upper.real,
    child_eq under.liveParent, child_eq upper.liveParent, Option.bind_eq_bind, Option.bind_some, if_false,
    leftRotate, rightRotate]
  cases side <;> cases side' <;> simp_all [Side.flip]

/-- **One pass** of the loop: the node comes up, and the order stays. -/
theorem Represents.splayStep (rep : s.Represents (plug (f :: path) (.node x l r))) :
    ∃ s' path' l' r', s.splayStep x = some s' ∧ s'.Represents (plug path' (.node x l' r')) ∧
      path'.length ≤ path.length ∧
      inorder (plug path' (.node x l' r')) = inorder (plug (f :: path) (.node x l r)) ∧ s'.rest = s.rest := by
  obtain ⟨d, p, c⟩ := f
  obtain ⟨a, b, sides⟩ := exists_join d x l r
  rw [sides] at rep ⊢
  have under := rep.under
  cases path with
  | nil =>
      have atRoot : s.Represents (plug [] (join d p (join d x a b) c)) := rep
      have top : s.links.parent p = 0 := atRoot.parent_eq_null.mpr rfl
      obtain ⟨s', step, rep', rest'⟩ := rep.rotate
      obtain ⟨l', r', sides'⟩ := exists_node d x a (join d p b c)
      refine ⟨s', [], l', r', (splayStep_zig under top).trans step, sides' ▸ rep', le_rfl, ?_, rest'⟩
      rw [← sides']
      exact inorder_plug_rotate d [] p x a b c
  | cons g path =>
      obtain ⟨e, q, f⟩ := g
      have lower : s.Represents (plug (⟨e, q, f⟩ :: path) (join d p (join d x a b) c)) := rep
      rw [splayStep_grandparent under lower.under]
      by_cases same : d = e
      · subst same
        -- the parent rises over the grandparent first, then the node over the parent
        obtain ⟨s₁, step₁, rep₁, rest₁⟩ := lower.rotate
        have between : s₁.Represents (plug (⟨d, p, join d q c f⟩ :: path) (join d x a b)) := rep₁
        obtain ⟨s₂, step₂, rep₂, rest₂⟩ := between.rotate
        obtain ⟨l', r', sides'⟩ := exists_node d x a (join d p b (join d q c f))
        refine ⟨s₂, path, l', r', ?_, sides' ▸ rep₂, Nat.le_succ _, ?_, rest₂.trans rest₁⟩
        · simp only [if_true, step₁, Option.bind_some, parent_eq between.live_at, between.under.parent]
          exact step₂
        · rw [← sides', inorder_plug_rotate]
          exact inorder_plug_rotate d path q p (join d x a b) c f
      · obtain ⟨s₁, step₁, rep₁, rest₁⟩ := rep.rotate
        obtain rfl : e = d.flip := (Side.eq_or_flip d e).resolve_left (Ne.symm same)
        rw [← join_flip] at rep₁
        obtain ⟨s₂, step₂, rep₂, rest₂⟩ := rep₁.rotate
        obtain ⟨l', r', sides'⟩ := exists_node d.flip x (join d p b c) (join d.flip q a f)
        refine ⟨s₂, path, l', r', ?_, sides' ▸ rep₂, Nat.le_succ _, ?_, rest₂.trans rest₁⟩
        · simp only [if_neg same, step₁, Option.bind_some, parent_eq rep₁.live_at, rep₁.under.parent]
          exact step₂
        · rw [← sides', inorder_plug_rotate]
          have again := inorder_plug_rotate d (⟨d.flip, q, f⟩ :: path) p x a b c
          rw [← join_flip d x] at again
          exact again

/-- **The splay loop** ends with the node at the root. -/
theorem Represents.splayLoop {fuel : Nat} (rep : s.Represents (plug path (.node x l r))) (enough : path.length < fuel) :
    ∃ s' l' r', s.splayLoop x fuel = some s' ∧ s'.Represents (.node x l' r') ∧
      inorder (.node x l' r') = inorder (plug path (.node x l r)) ∧ s'.rest = s.rest := by
  induction fuel generalizing s path l r with
  | zero => omega
  | succ fuel ih =>
      have live : x ∈ s.nodes := Represents.live_at (d := .left) (a := l) (b := r) rep
      have top := Represents.parent_eq_null (d := .left) (a := l) (b := r) rep
      simp only [SplayTree.splayLoop, parent_eq live, Option.bind_eq_bind, Option.bind_some]
      cases path with
      | nil =>
          rw [if_pos (top.mpr rfl)]
          exact ⟨s, l, r, rfl, rep, rfl, rfl⟩
      | cons f path =>
          rw [if_neg (top.not.mpr (by simp))]
          obtain ⟨s₁, path', l', r', step, rep₁, shorter, order₁, rest₁⟩ := rep.splayStep
          rw [List.length_cons] at enough
          obtain ⟨s₂, l'', r'', loop, rep₂, order₂, rest₂⟩ := ih rep₁ (by omega)
          exact ⟨s₂, l'', r'', by rw [step, Option.bind_some, loop], rep₂, order₂.trans order₁, rest₂.trans rest₁⟩

theorem length_le_outside (path : Path Addr) : path.length ≤ (outside path).length := by
  induction path with
  | nil => exact le_rfl
  | cons f path ih =>
      simp only [outside, List.length_cons, List.length_append]
      omega

/-- There are as many nodes in the tree as were allocated and not freed. -/
theorem Represents.length_eq (rep : s.Represents t) : (inorder t).length = s.nodes.entries.length := by
  have keys : (inorder t).Perm s.nodes.keys := by
    refine (List.perm_ext_iff_of_nodup rep.nodup s.nodes.nodupKeys).mpr fun x => ?_
    rw [← rep.live x]
    exact AList.mem_keys
  rw [keys.length_eq, AList.keys, List.keys, List.length_map]

theorem Represents.splay (rep : s.Represents t) (member : x ∈ inorder t) :
    ∃ s' l r, s.splay x = some s' ∧ s'.Represents (.node x l r) ∧ inorder (.node x l r) = inorder t ∧
      s'.rest = s.rest := by
  obtain ⟨path, l, r, rfl⟩ := exists_plug member
  have length := rep.length_eq
  rw [(inorder_plug_perm path _).length_eq, List.length_append] at length
  have spine := length_le_outside path
  exact rep.splayLoop (by omega)

end SplayTree

end SystemsLabs.Driver
