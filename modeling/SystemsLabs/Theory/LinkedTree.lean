/-
# SystemsLabs.Theory.LinkedTree -- binary trees as nodes with child and parent links

The nodes of a tree are the values it holds, and a memory is read through `Links`: the two
children and the parent of each node.  `L.Tree null t p par` says that the links from `p` on
make up `t`, whose root has the parent `par`.

A tree is taken apart at a node as in a zipper: a `Path` of frames leads from the node to the
root (`plug`), and `L.Hole` is what the links say about it.  All is stated for a side and its
mirror at once (`join`).

* `tree_plug` takes a linked tree apart and puts it together;
* `Tree.congr`, `Tree.reparent` and `Hole.redirect` are the frame rules: links elsewhere, the
  parent of a root, the edge that leads to a hole;
* `Tree.rotate` is the rotation;
* `locate` is the search in an ordered tree, `locate_spec` what it finds.
-/
import Mathlib.Data.Tree.Basic
import Mathlib.Data.List.Nodup
import Mathlib.Data.List.Pairwise
import Mathlib.Order.Lattice
import Mathlib.Tactic.Common

namespace SystemsLabs.Theory.LinkedTree

set_option autoImplicit false

universe u v

inductive Side where
  | left
  | right
deriving DecidableEq, Repr

def Side.flip : Side → Side
  | .left => .right
  | .right => .left

@[simp] theorem Side.flip_flip (d : Side) : d.flip.flip = d := by cases d <;> rfl

@[simp] theorem Side.flip_ne (d : Side) : d.flip ≠ d := by cases d <;> decide

@[simp] theorem Side.ne_flip (d : Side) : d ≠ d.flip := d.flip_ne.symm

theorem Side.eq_or_flip (d e : Side) : e = d ∨ e = d.flip := by
  cases d <;> cases e <;> simp [Side.flip]

section Trees

variable {α : Type u}

/-- The nodes of a tree in order. -/
def inorder : BinaryTree α → List α
  | .nil => []
  | .node x l r => inorder l ++ x :: inorder r

/-- The node `x` with one subtree on the side `d` and another on its mirror. -/
def join : Side → α → BinaryTree α → BinaryTree α → BinaryTree α
  | .left, x, near, far => .node x near far
  | .right, x, near, far => .node x far near

theorem join_flip (d : Side) (x : α) (near far : BinaryTree α) : join d.flip x far near = join d x near far := by
  cases d <;> rfl

theorem exists_join (d : Side) (x : α) (l r : BinaryTree α) : ∃ near far, .node x l r = join d x near far := by
  cases d
  · exact ⟨l, r, rfl⟩
  · exact ⟨r, l, rfl⟩

theorem exists_node (d : Side) (x : α) (near far : BinaryTree α) : ∃ l r, join d x near far = .node x l r := by
  cases d
  · exact ⟨near, far, rfl⟩
  · exact ⟨far, near, rfl⟩

theorem inorder_join_perm (d : Side) (x : α) (near far : BinaryTree α) :
    (inorder (join d x near far)).Perm (x :: (inorder near ++ inorder far)) := by
  cases d
  · exact List.perm_middle
  · exact List.perm_middle.trans (List.perm_append_comm.cons x)

/-- A rotation keeps the order of the nodes. -/
theorem inorder_rotate (d : Side) (p x : α) (a b c : BinaryTree α) :
    inorder (join d x a (join d p b c)) = inorder (join d p (join d x a b) c) := by
  cases d <;> simp [join, inorder]

/-- The step from a node to its parent: the side it is on, the parent and the subtree on the
other side. -/
structure Frame (α : Type u) where
  side : Side
  node : α
  sibling : BinaryTree α

/-- The way from a node to the root, its parent first. -/
abbrev Path (α : Type u) := List (Frame α)

def plug : Path α → BinaryTree α → BinaryTree α
  | [], t => t
  | f :: path, t => plug path (join f.side f.node t f.sibling)

/-- The nodes before and after those of the subtree at the end of the path. -/
def before : Path α → List α
  | [] => []
  | ⟨.left, _, _⟩ :: path => before path
  | ⟨.right, x, sibling⟩ :: path => before path ++ inorder sibling ++ [x]

def after : Path α → List α
  | [] => []
  | ⟨.left, x, sibling⟩ :: path => x :: inorder sibling ++ after path
  | ⟨.right, _, _⟩ :: path => after path

theorem before_append (path path' : Path α) : before (path ++ path') = before path' ++ before path := by
  induction path with
  | nil => simp [before]
  | cons f path ih =>
      obtain ⟨side, x, sibling⟩ := f
      cases side <;> simp [before, ih]

theorem inorder_plug (path : Path α) (t : BinaryTree α) :
    inorder (plug path t) = before path ++ inorder t ++ after path := by
  induction path generalizing t with
  | nil => simp [plug, before, after]
  | cons f path ih =>
      obtain ⟨side, x, sibling⟩ := f
      rw [plug, ih]
      cases side <;> simp [join, inorder, before, after]

theorem plug_append (path path' : Path α) (t : BinaryTree α) : plug (path ++ path') t = plug path' (plug path t) := by
  induction path generalizing t with
  | nil => rfl
  | cons f path ih => exact ih _

/-- The nodes outside the subtree. -/
def outside : Path α → List α
  | [] => []
  | f :: path => f.node :: (inorder f.sibling ++ outside path)

theorem outside_perm (path : Path α) : (outside path).Perm (before path ++ after path) := by
  induction path with
  | nil => exact List.Perm.refl _
  | cons f path ih =>
      obtain ⟨side, x, sibling⟩ := f
      cases side with
      | left =>
          show (x :: (inorder sibling ++ outside path)).Perm (before path ++ (x :: inorder sibling ++ after path))
          refine List.Perm.trans ?_ List.perm_middle.symm
          refine List.Perm.cons x (((List.Perm.append_left _ ih)).trans ?_)
          simpa using (List.perm_append_comm_assoc (inorder sibling) (before path) (after path))
      | right =>
          show (x :: (inorder sibling ++ outside path)).Perm (before path ++ inorder sibling ++ [x] ++ after path)
          rw [List.append_assoc, List.singleton_append]
          refine List.Perm.trans (List.Perm.cons x ?_) List.perm_middle.symm
          refine (List.Perm.append_left _ ih).trans ?_
          simpa using (List.perm_append_comm_assoc (inorder sibling) (before path) (after path))

theorem inorder_plug_perm (path : Path α) (t : BinaryTree α) :
    (inorder (plug path t)).Perm (inorder t ++ outside path) := by
  rw [inorder_plug]
  refine List.Perm.trans ?_ (List.Perm.append_left _ (outside_perm path).symm)
  simpa using List.perm_append_comm_assoc (before path) (inorder t) (after path)

/-- A node with one subtree and the rest. -/
theorem inorder_plug_join_perm (d : Side) (path : Path α) (x : α) (t : BinaryTree α) :
    (inorder (plug path (join d x .nil t))).Perm (x :: inorder (plug path t)) := by
  refine (inorder_plug_perm path _).trans (((inorder_join_perm d x .nil t).append_right _).trans ?_)
  exact (inorder_plug_perm path t).symm.cons x

variable {d : Side} {x y : α} {near far t : BinaryTree α} {path : Path α}

theorem mem_join : y ∈ inorder (join d x near far) ↔ y = x ∨ y ∈ inorder near ∨ y ∈ inorder far := by
  rw [(inorder_join_perm d x near far).mem_iff, List.mem_cons, List.mem_append]

theorem mem_plug : x ∈ inorder (plug path t) ↔ x ∈ inorder t ∨ x ∈ outside path := by
  rw [(inorder_plug_perm path t).mem_iff, List.mem_append]

/-- No node is in the subtree and outside it. -/
theorem not_mem_outside (nodup : (inorder (plug path t)).Nodup) (inside : x ∈ inorder t) : x ∉ outside path :=
  fun out => (List.nodup_append.mp ((inorder_plug_perm path t).nodup nodup)).2.2 x inside x out rfl

/-- Every node of a tree is at the end of a path. -/
theorem exists_plug (member : x ∈ inorder t) : ∃ path l r, t = plug path (.node x l r) := by
  induction t with
  | nil => simp [inorder] at member
  | node y l r ihl ihr =>
      rw [inorder, List.mem_append, List.mem_cons] at member
      obtain inLeft | rfl | inRight := member
      · obtain ⟨path, l', r', rfl⟩ := ihl inLeft
        exact ⟨path ++ [⟨.left, y, r⟩], l', r', by rw [plug_append]; rfl⟩
      · exact ⟨[], l, r, rfl⟩
      · obtain ⟨path, l', r', rfl⟩ := ihr inRight
        exact ⟨path ++ [⟨.right, y, l⟩], l', r', by rw [plug_append]; rfl⟩

end Trees

/-! ## Links -/

/-- The links between the nodes, and the node at the root. -/
structure Links (α : Type u) where
  child : Side → α → α
  parent : α → α
  root : α

namespace Links

variable {α : Type u} (null : α)

/-- The links from `p` on make up the tree, whose root has the parent `par`. -/
def Tree (L : Links α) : BinaryTree α → α → α → Prop
  | .nil, p, _ => p = null
  | .node x l r, p, par =>
      p = x ∧ x ≠ null ∧ L.parent x = par ∧ L.Tree l (L.child .left x) x ∧ L.Tree r (L.child .right x) x

/-- The links around a subtree: `p` leads to it from its parent `par`. -/
def Hole (L : Links α) : Path α → α → α → Prop
  | [], p, par => p = L.root ∧ par = null
  | f :: path, p, par =>
      p = L.child f.side f.node ∧ par = f.node ∧ f.node ≠ null ∧
        L.Tree null f.sibling (L.child f.side.flip f.node) f.node ∧ L.Hole path f.node (L.parent f.node)

variable {null} {L L' : Links α} {d e : Side} {x y p p' q par par' : α} {near far t : BinaryTree α}
  {path : Path α}

@[simp] theorem tree_nil : L.Tree null .nil p par ↔ p = null := Iff.rfl

theorem tree_join : L.Tree null (join d x near far) p par ↔
    p = x ∧ x ≠ null ∧ L.parent x = par ∧ L.Tree null near (L.child d x) x ∧
      L.Tree null far (L.child d.flip x) x := by
  cases d
  · exact Iff.rfl
  · simp only [join, Tree, Side.flip, and_comm (a := L.Tree null far _ _)]

theorem tree_plug : L.Tree null (plug path t) L.root null ↔
    ∃ p par, L.Hole null path p par ∧ L.Tree null t p par := by
  induction path generalizing t with
  | nil =>
      constructor
      · intro tree
        exact ⟨_, _, ⟨rfl, rfl⟩, tree⟩
      · rintro ⟨_, _, ⟨rfl, rfl⟩, tree⟩
        exact tree
  | cons f path ih =>
      rw [plug, ih]
      constructor
      · rintro ⟨p, par, hole, tree⟩
        obtain ⟨rfl, real, rfl, tree, sibling⟩ := tree_join.mp tree
        exact ⟨_, _, ⟨rfl, rfl, real, sibling, hole⟩, tree⟩
      · rintro ⟨p, par, ⟨rfl, rfl, real, sibling, hole⟩, tree⟩
        exact ⟨_, _, hole, tree_join.mpr ⟨rfl, real, rfl, tree, sibling⟩⟩

theorem Tree.ne_null (tree : L.Tree null t p par) : ∀ y ∈ inorder t, y ≠ null := by
  induction t generalizing p par with
  | nil => simp [inorder]
  | node x l r ihl ihr =>
      obtain ⟨-, real, -, left, right⟩ := tree
      intro y member
      rw [inorder, List.mem_append, List.mem_cons] at member
      obtain member | rfl | member := member
      · exact ihl left y member
      · exact real
      · exact ihr right y member

theorem Tree.ne_null_of_ne_nil (tree : L.Tree null t p par) (nonempty : t ≠ .nil) : p ≠ null := by
  cases t with
  | nil => exact absurd rfl nonempty
  | node x l r =>
      obtain ⟨rfl, real, -⟩ := tree
      exact real

/-- The pointer to a tree is null or its root. -/
theorem Tree.mem_of_ne_null (tree : L.Tree null t p par) (real : p ≠ null) : p ∈ inorder t := by
  cases t with
  | nil => exact absurd tree real
  | node x l r =>
      obtain ⟨rfl, -⟩ := tree
      simp [inorder]

/-! ### Frame rules -/

/-- Two sets of links agree at a node. -/
def SameAt (L L' : Links α) (x : α) : Prop := (∀ d, L'.child d x = L.child d x) ∧ L'.parent x = L.parent x

theorem Tree.congr (tree : L.Tree null t p par) (same : ∀ y ∈ inorder t, L.SameAt L' y) :
    L'.Tree null t p par := by
  induction t generalizing p par with
  | nil => exact tree
  | node x l r ihl ihr =>
      obtain ⟨rfl, real, rfl, left, right⟩ := tree
      have here : L.SameAt L' p := same p (by simp [inorder])
      refine ⟨rfl, real, here.2, ?_, ?_⟩
      · rw [here.1]
        exact ihl left fun y member => same y (by simp [inorder, member])
      · rw [here.1]
        exact ihr right fun y member => same y (by simp [inorder, member])

/-- The parent of the root of a subtree is changed, and nothing else. -/
theorem Tree.reparent (tree : L.Tree null t p par) (nodup : (inorder t).Nodup)
    (child : ∀ y ∈ inorder t, ∀ d, L'.child d y = L.child d y)
    (moved : p ≠ null → L'.parent p = par')
    (kept : ∀ y ∈ inorder t, y ≠ p → L'.parent y = L.parent y) : L'.Tree null t p par' := by
  cases t with
  | nil => exact tree
  | node x l r =>
      obtain ⟨rfl, real, -, left, right⟩ := tree
      have apart := (List.nodup_cons.mp (List.nodup_middle.mp nodup)).1
      rw [List.mem_append, not_or] at apart
      have here := child p (by simp [inorder])
      refine ⟨rfl, real, moved real, ?_, ?_⟩
      · rw [here]
        refine left.congr fun y member => ⟨child y (by simp [inorder, member]), kept y (by simp [inorder, member]) ?_⟩
        rintro rfl
        exact apart.1 member
      · rw [here]
        refine right.congr fun y member => ⟨child y (by simp [inorder, member]), kept y (by simp [inorder, member]) ?_⟩
        rintro rfl
        exact apart.2 member

theorem Hole.congr (hole : L.Hole null path p par) (root : L'.root = L.root)
    (same : ∀ y ∈ outside path, L.SameAt L' y) : L'.Hole null path p par := by
  induction path generalizing p par with
  | nil => exact ⟨hole.1.trans root.symm, hole.2⟩
  | cons f path ih =>
      obtain ⟨rfl, rfl, real, sibling, hole⟩ := hole
      have here : L.SameAt L' f.node := same _ (by simp [outside])
      refine ⟨(here.1 _).symm, rfl, real, ?_, ?_⟩
      · rw [here.1]
        exact sibling.congr fun y member => same y (by simp [outside, member])
      · rw [here.2]
        exact ih hole fun y member => same y (by simp [outside, member])

theorem Hole.parent_eq_null (hole : L.Hole null path p par) : par = null ↔ path = [] := by
  cases path with
  | nil => simp [hole.2]
  | cons f path =>
      obtain ⟨-, rfl, real, -⟩ := hole
      simp [real]

theorem Hole.parent_mem (hole : L.Hole null path p par) (real : par ≠ null) : par ∈ outside path := by
  cases path with
  | nil => exact absurd hole.2 real
  | cons f path =>
      obtain ⟨-, rfl, -⟩ := hole
      simp [outside]

/-! ### Edits -/

section Edits

variable [DecidableEq α]

def setChild (L : Links α) (d : Side) (x p : α) : Links α :=
  { L with child := fun e y => if e = d ∧ y = x then p else L.child e y }

def setParent (L : Links α) (x p : α) : Links α :=
  { L with parent := fun y => if y = x then p else L.parent y }

@[simp] theorem setChild_parent : (L.setChild d x p).parent = L.parent := rfl

@[simp] theorem setChild_root : (L.setChild d x p).root = L.root := rfl

@[simp] theorem setParent_child : (L.setParent x p).child = L.child := rfl

@[simp] theorem setParent_root : (L.setParent x p).root = L.root := rfl

@[simp] theorem setChild_child : (L.setChild d x p).child d x = p := by simp [setChild]

@[simp] theorem setChild_child_flip : (L.setChild d x p).child d.flip x = L.child d.flip x := by simp [setChild]

theorem setChild_child_side (other : e ≠ d) : (L.setChild d x p).child e y = L.child e y := by
  simp [setChild, other]

theorem setChild_child_ne (other : y ≠ x) : (L.setChild d x p).child e y = L.child e y := by
  simp [setChild, other]

@[simp] theorem setParent_parent : (L.setParent x p).parent x = p := by simp [setParent]

theorem setParent_parent_ne (other : y ≠ x) : (L.setParent x p).parent y = L.parent y := by
  simp [setParent, other]

variable (null) in
/-- The edge that leads to `u`, from its parent or from the root pointer, leads to `v`. -/
def relink (L : Links α) (u v : α) : Links α :=
  if L.parent u = null then { L with root := v }
  else if u = L.child .left (L.parent u) then L.setChild .left (L.parent u) v
  else L.setChild .right (L.parent u) v

@[simp] theorem relink_parent : (L.relink null x p).parent = L.parent := by
  unfold relink
  split
  · rfl
  · split <;> rfl

theorem relink_child (other : y ≠ L.parent x) : (L.relink null x p).child e y = L.child e y := by
  unfold relink
  split
  · rfl
  · split <;> exact setChild_child_ne other

/-- The edge from the parent is set. -/
theorem Hole.setChild {f : Frame α} (hole : L.Hole null (f :: path) p par) (nodup : (outside (f :: path)).Nodup)
    (v : α) : (L.setChild f.side f.node v).Hole null (f :: path) v par := by
  obtain ⟨-, rfl, realParent, sibling, hole⟩ := hole
  rw [outside, List.nodup_cons, List.mem_append, not_or] at nodup
  have same : ∀ y, y ≠ f.node → L.SameAt (L.setChild f.side f.node v) y :=
    fun y other => ⟨fun e => setChild_child_ne other, rfl⟩
  refine ⟨by simp, rfl, realParent, ?_, ?_⟩
  · rw [setChild_child_flip]
    refine sibling.congr fun y member => same y ?_
    rintro rfl
    exact nodup.1.1 member
  · refine hole.congr rfl fun y member => same y ?_
    rintro rfl
    exact nodup.1.2 member

/-- **The edge to a hole** is the one that is relinked. -/
theorem Hole.relink (hole : L.Hole null path x par) (parent : L.parent x = par) (real : x ≠ null)
    (off : x ∉ outside path) (nodup : (outside path).Nodup) (v : α) :
    (L.relink null x v).Hole null path v par := by
  cases path with
  | nil =>
      obtain ⟨rfl, rfl⟩ := hole
      rw [Links.relink, if_pos parent]
      exact ⟨rfl, rfl⟩
  | cons f path =>
      have edited := hole.setChild nodup v
      obtain ⟨edge, rfl, realParent, sibling, -⟩ := hole
      have beside : x ≠ L.child f.side.flip f.node := by
        rintro rfl
        exact off (by simp [outside, sibling.mem_of_ne_null real])
      have edits : L.relink null x v = L.setChild f.side f.node v := by
        rw [Links.relink, parent, if_neg realParent]
        obtain ⟨side, node, subtree⟩ := f
        cases side with
        | left => exact if_pos edge
        | right => exact if_neg beside
      rwa [edits]

variable (null) in
/-- The first half of a rotation: the subtree between the child of `p` on the side `d` and `p`
goes to `p`, the parent of `p` to the child. -/
def handOver (L : Links α) (d : Side) (p : α) : Links α :=
  let x := L.child d p
  let b := L.child d.flip x
  let L' := if b = null then L.setChild d p b else (L.setChild d p b).setParent b p
  L'.setParent x (L.parent p)

variable (null) in
/-- The rotation at `p`: its child on the side `d` comes to its place. -/
def rotate (L : Links α) (d : Side) (p : α) : Links α :=
  let x := L.child d p
  (((L.handOver null d p).relink null p x).setChild d.flip x p).setParent p x

@[simp] theorem handOver_root : (L.handOver null d p).root = L.root := by
  unfold handOver
  dsimp only
  split <;> rfl

theorem handOver_child : (L.handOver null d p).child =
    (L.setChild d p (L.child d.flip (L.child d p))).child := by
  unfold handOver
  dsimp only
  split <;> rfl

theorem handOver_parent_child : (L.handOver null d p).parent (L.child d p) = L.parent p := by
  simp [handOver]

/-- The parent of the subtree that changes hands. -/
theorem handOver_parent_inner (real : L.child d.flip (L.child d p) ≠ null)
    (other : L.child d.flip (L.child d p) ≠ L.child d p) :
    (L.handOver null d p).parent (L.child d.flip (L.child d p)) = p := by
  unfold handOver
  dsimp only
  rw [if_neg real, setParent_parent_ne other, setParent_parent]

theorem handOver_parent_ne (other : y ≠ L.child d p)
    (outer : L.child d.flip (L.child d p) ≠ null → y ≠ L.child d.flip (L.child d p)) :
    (L.handOver null d p).parent y = L.parent y := by
  unfold handOver
  dsimp only
  rw [setParent_parent_ne other]
  split
  · rfl
  · next real => exact setParent_parent_ne (outer real)

/-- **Rotation.** -/
theorem Tree.rotate {a b c : BinaryTree α}
    (tree : L.Tree null (plug path (join d p (join d x a b) c)) L.root null)
    (nodup : (inorder (plug path (join d p (join d x a b) c))).Nodup) :
    (L.rotate null d p).Tree null (plug path (join d x a (join d p b c))) (L.rotate null d p).root null := by
  obtain ⟨q, par, hole, subtree⟩ := tree_plug.mp tree
  obtain ⟨here, realP, parentP, subtreeX, treeC⟩ := tree_join.mp subtree
  obtain ⟨edge, realX, -, treeA, treeB⟩ := tree_join.mp subtreeX
  rw [here] at hole
  have lower : (inorder (join d p (join d x a b) c)).Perm (p :: x :: (inorder a ++ inorder b ++ inorder c)) :=
    (inorder_join_perm d p _ c).trans (((inorder_join_perm d x a b).append_right _).cons p)
  have apart : (p :: x :: (inorder a ++ inorder b ++ inorder c ++ outside path)).Nodup :=
    ((inorder_plug_perm path _).trans (lower.append_right _)).nodup nodup
  simp only [List.nodup_cons, List.nodup_append, List.mem_cons, List.mem_append, not_or] at apart
  obtain ⟨⟨pNeX, ⟨⟨pA, pB⟩, pC⟩, pN⟩, ⟨⟨⟨xA, xB⟩, xC⟩, xN⟩, ⟨⟨nodupA, nodupB, ab⟩, nodupC, abc⟩, nodupN, abcn⟩ := apart
  have inner : L.child d.flip x ≠ null → L.child d.flip x ∈ inorder b := treeB.mem_of_ne_null
  -- the links of the three stages, off the nodes that change
  have handed : ∀ y, y ≠ p → y ≠ x → y ∉ inorder b → L.SameAt (L.handOver null d p) y := by
    intro y neP neX notB
    refine ⟨fun e => ?_, handOver_parent_ne (edge ▸ neX) ?_⟩
    · rw [handOver_child, setChild_child_ne neP]
    · rw [edge]
      rintro real rfl
      exact notB (inner real)
  have parentH : (L.handOver null d p).parent p = par := by
    rw [handOver_parent_ne (by rwa [edge]), parentP]
    rw [edge]
    rintro real rfl
    exact pB (inner real)
  have hole₁ : (L.handOver null d p).Hole null path p par := by
    refine hole.congr handOver_root fun y member => handed y ?_ ?_ ?_
    · rintro rfl; exact pN member
    · rintro rfl; exact xN member
    · exact fun inB => abcn y (.inl (.inr inB)) y member rfl
  have hole₂ := hole₁.relink parentH realP pN nodupN x
  have offPar : ∀ y, y ∉ outside path → y ≠ null → y ≠ par := by
    rintro y off real rfl
    exact off (hole.parent_mem real)
  have atRotate : L.rotate null d p =
      (((L.handOver null d p).relink null p x).setChild d.flip x p).setParent p x := by
    rw [Links.rotate, edge]
  have child : ∀ y, y ≠ x → y ≠ par → ∀ e, (L.rotate null d p).child e y = (L.handOver null d p).child e y := by
    intro y neX nePar e
    rw [atRotate, setParent_child, setChild_child_ne neX, relink_child (by rwa [parentH])]
  have parent : ∀ y, y ≠ p → (L.rotate null d p).parent y = (L.handOver null d p).parent y := by
    intro y neP
    rw [atRotate, setParent_parent_ne neP, setChild_parent, relink_parent]
  have same : ∀ y, y ≠ p → y ≠ x → y ∉ inorder b → y ≠ par → L.SameAt (L.rotate null d p) y := by
    intro y neP neX notB nePar
    have mid := handed y neP neX notB
    exact ⟨fun e => (child y neX nePar e).trans (mid.1 e), (parent y neP).trans mid.2⟩
  have parP := offPar p pN realP
  have parX := offPar x xN realX
  refine tree_plug.mpr ⟨x, par, ?_, tree_join.mpr ⟨rfl, realX, ?_, ?_, ?_⟩⟩
  · refine hole₂.congr (by rw [atRotate]; rfl) fun y member => ?_
    rw [atRotate]
    refine ⟨fun e => ?_, ?_⟩
    · rw [setParent_child, setChild_child_ne]
      rintro rfl; exact xN member
    · rw [setParent_parent_ne, setChild_parent]
      rintro rfl; exact pN member
  · rw [parent x (Ne.symm pNeX)]
    rw [← edge, handOver_parent_child, parentP]
  · have link : (L.rotate null d p).child d x = L.child d x := by
      rw [atRotate, setParent_child, setChild_child_side d.ne_flip, relink_child (by rwa [parentH]), handOver_child,
        setChild_child_ne (Ne.symm pNeX)]
    rw [link]
    refine treeA.congr fun y member => same y ?_ ?_ ?_ ?_
    · rintro rfl; exact pA member
    · rintro rfl; exact xA member
    · exact fun inB => ab y member y inB rfl
    · exact offPar y (fun inN => abcn y (.inl (.inl member)) y inN rfl) (treeA.ne_null y member)
  · have link : (L.rotate null d p).child d.flip x = p := by
      rw [atRotate, setParent_child, setChild_child]
    rw [link]
    refine tree_join.mpr ⟨rfl, realP, ?_, ?_, ?_⟩
    · rw [atRotate, setParent_parent]
    · have link : (L.rotate null d p).child d p = L.child d.flip x := by
        rw [child p pNeX parP, handOver_child, edge, setChild_child]
      rw [link]
      refine treeB.reparent nodupB ?_ ?_ ?_
      · intro y member e
        have neP : y ≠ p := by rintro rfl; exact pB member
        have neX : y ≠ x := by rintro rfl; exact xB member
        have nePar : y ≠ par :=
          offPar y (fun inN => abcn y (.inl (.inr member)) y inN rfl) (treeB.ne_null y member)
        rw [child y neX nePar, handOver_child, setChild_child_ne neP]
      · intro real
        have neP : L.child d.flip x ≠ p := fun same => pB (same ▸ inner real)
        have neX : L.child d.flip x ≠ x := fun same => xB (same ▸ inner real)
        rw [parent _ neP]
        have handed : L.child d.flip (L.child d p) ≠ null → L.child d.flip (L.child d p) ≠ L.child d p →
            (L.handOver null d p).parent (L.child d.flip (L.child d p)) = p := handOver_parent_inner
        rw [edge] at handed
        exact handed real neX
      · intro y member other
        have neP : y ≠ p := by rintro rfl; exact pB member
        have neX : y ≠ x := by rintro rfl; exact xB member
        rw [parent y neP, handOver_parent_ne (by rwa [edge])]
        rw [edge]
        exact fun _ => other
    · have link : (L.rotate null d p).child d.flip p = L.child d.flip p := by
        rw [child p pNeX parP, handOver_child, setChild_child_flip]
      rw [link]
      refine treeC.congr fun y member => same y ?_ ?_ ?_ ?_
      · rintro rfl; exact pC member
      · rintro rfl; exact xC member
      · exact fun inB => abc y (.inr inB) y member rfl
      · exact offPar y (fun inN => abcn y (.inr member) y inN rfl) (treeC.ne_null y member)

variable (null) in
/-- The subtree at `v` takes the place of the one at `u`. -/
def replace (L : Links α) (u v : α) : Links α :=
  let L' := L.relink null u v
  if v = null then L' else L'.setParent v (L.parent u)

theorem replace_child (other : y ≠ L.parent x) : (L.replace null x p).child e y = L.child e y := by
  have relinked : (L.replace null x p).child = (L.relink null x p).child := by
    unfold Links.replace
    dsimp only
    split <;> rfl
  rw [relinked, relink_child other]

theorem replace_root : (L.replace null x p).root = (L.relink null x p).root := by
  unfold Links.replace
  dsimp only
  split <;> rfl

theorem replace_parent (real : p ≠ null) : (L.replace null x p).parent p = L.parent x := by
  rw [Links.replace, if_neg real, setParent_parent]

theorem replace_parent_ne (other : p ≠ null → y ≠ p) : (L.replace null x p).parent y = L.parent y := by
  rw [Links.replace]
  split
  · rw [relink_parent]
  · next real => rw [setParent_parent_ne (other real), relink_parent]

/-- **A node with one subtree** is replaced by it. -/
theorem Tree.replace (d : Side) (path : Path α) (tree : L.Tree null (plug path (join d x .nil t)) L.root null)
    (nodup : (inorder (plug path (join d x .nil t))).Nodup) :
    (L.replace null x (L.child d.flip x)).Tree null (plug path t) (L.replace null x (L.child d.flip x)).root null := by
  obtain ⟨q, par, hole, subtree⟩ := tree_plug.mp tree
  obtain ⟨here, real, parent, -, subtree⟩ := tree_join.mp subtree
  rw [here] at hole
  have apart : (x :: (inorder t ++ outside path)).Nodup :=
    ((inorder_plug_perm path _).trans ((inorder_join_perm d x .nil t).append_right _)).nodup nodup
  simp only [List.nodup_cons, List.nodup_append, List.mem_append, not_or] at apart
  obtain ⟨⟨-, xN⟩, nodupT, nodupN, tn⟩ := apart
  have inner : L.child d.flip x ≠ null → L.child d.flip x ∈ inorder t := subtree.mem_of_ne_null
  have offPar : ∀ y ∈ inorder t, y ≠ L.parent x := by
    rintro y member rfl
    have realPar := subtree.ne_null _ member
    rw [parent] at realPar member
    exact tn par member par (hole.parent_mem realPar) rfl
  refine tree_plug.mpr ⟨L.child d.flip x, par, ?_, ?_⟩
  · refine (hole.relink parent real xN nodupN (L.child d.flip x)).congr replace_root fun y member => ⟨fun e => ?_, ?_⟩
    · unfold Links.replace
      dsimp only
      split <;> rfl
    · rw [relink_parent]
      refine replace_parent_ne fun real => ?_
      rintro rfl
      exact tn _ (inner real) _ member rfl
  · refine subtree.reparent nodupT ?_ ?_ ?_
    · exact fun y member e => replace_child (offPar y member)
    · exact fun real => (replace_parent real).trans parent
    · exact fun y _ other => replace_parent_ne fun _ => other

variable (null) in
/-- `y` takes the place of `z` and its left subtree. -/
def promote (L : Links α) (z y : α) : Links α :=
  ((L.replace null z y).setChild .left y (L.child .left z)).setParent (L.child .left z) y

/-- A node takes the place of the root where its right subtree is in place already. -/
theorem promote_tree {l r : BinaryTree α} (top : L.parent x = null) (real : y ≠ null)
    (left : L.Tree null l (L.child .left x) x) (right : L.Tree null r (L.child .right y) y)
    (nonempty : L.child .left x ≠ null) (nodup : (y :: (inorder l ++ inorder r)).Nodup) :
    (L.promote null x y).Tree null (.node y l r) (L.promote null x y).root null := by
  simp only [List.nodup_cons, List.nodup_append, List.mem_append, not_or] at nodup
  obtain ⟨⟨yL, yR⟩, nodupL, -, apart⟩ := nodup
  have inL : L.child .left x ∈ inorder l := left.mem_of_ne_null nonempty
  have child : ∀ q, q ≠ y → q ≠ null → ∀ e, (L.promote null x y).child e q = L.child e q := by
    intro q neY real e
    rw [promote, setParent_child, setChild_child_ne neY, replace_child (by rwa [top])]
  have parent : ∀ q, q ≠ y → q ≠ L.child .left x → (L.promote null x y).parent q = L.parent q := by
    intro q neY neL
    rw [promote, setParent_parent_ne neL, setChild_parent, replace_parent_ne fun _ => neY]
  have root : (L.promote null x y).root = y := by
    rw [promote, setParent_root, setChild_root, replace_root, Links.relink, if_pos top]
  have leftLink : (L.promote null x y).child .left y = L.child .left x := by
    rw [promote, setParent_child, setChild_child]
  have rightLink : (L.promote null x y).child .right y = L.child .right y := by
    rw [promote, setParent_child, setChild_child_side (by decide), replace_child (by rwa [top])]
  refine ⟨root, real, ?_, ?_, ?_⟩
  · have other : y ≠ L.child .left x := fun same => yL (same ▸ inL)
    rw [promote, setParent_parent_ne other, setChild_parent, replace_parent real, top]
  · rw [leftLink]
    refine left.reparent nodupL ?_ ?_ ?_
    · intro q member e
      exact child q (fun same => yL (same ▸ member)) (left.ne_null q member) e
    · intro _
      rw [promote, setParent_parent]
    · exact fun q member other => parent q (fun same => yL (same ▸ member)) other
  · rw [rightLink]
    refine right.congr fun q member => ?_
    have neY : q ≠ y := fun same => yR (same ▸ member)
    exact ⟨child q neY (right.ne_null q member), parent q neY fun same => apart _ inL _ member same.symm⟩

variable (null) in
/-- The successor `y` of `z` leaves its place and takes the right subtree of `z`. -/
def takeRight (L : Links α) (z y : α) : Links α :=
  let L' := L.replace null y (L.child .right y)
  (L'.setChild .right y (L'.child .right z)).setParent (L'.child .right z) y

/-- **The successor of the root** has left its place: the two subtrees are at the root and at
the successor. -/
theorem takeRight_trees {l : BinaryTree α} (tree : L.Tree null (.node x l (plug path (.node y .nil t))) L.root null)
    (nodup : (inorder (.node x l (plug path (.node y .nil t)))).Nodup) :
    (L.takeRight null x y).parent x = null ∧
      (L.takeRight null x y).Tree null l ((L.takeRight null x y).child .left x) x ∧
      (L.takeRight null x y).Tree null (plug path t) ((L.takeRight null x y).child .right y) y := by
  have split : ∀ u, plug (path ++ [⟨.right, x, l⟩]) u = .node x l (plug path u) := fun u => plug_append _ _ _
  have here : plug (path ++ [⟨.right, x, l⟩]) (join .left y .nil t) = .node x l (plug path (.node y .nil t)) := split _
  have apart : (x :: (inorder l ++ y :: inorder (plug path t))).Nodup :=
    (List.perm_middle.trans (((inorder_plug_join_perm .left path y t).append_left _).cons x)).nodup nodup
  simp only [List.nodup_cons, List.nodup_append, List.mem_append, List.mem_cons, not_or] at apart
  obtain ⟨⟨xL, xNeY, xR⟩, nodupL, ⟨yR, nodupR⟩, lr⟩ := apart
  obtain ⟨L', isL'⟩ : ∃ L', L' = L.replace null y (L.child .right y) := ⟨_, rfl⟩
  have shorter : L'.Tree null (.node x l (plug path t)) L'.root null := by
    have replaced : (L.replace null y (L.child .right y)).Tree null (plug (path ++ [⟨.right, x, l⟩]) t) _ null :=
      Tree.replace .left (path ++ [⟨.right, x, l⟩]) (here ▸ tree) (here ▸ nodup)
    rw [split] at replaced
    rw [isL']
    exact replaced
  obtain ⟨-, realX, top, left, right⟩ := shorter
  have edits : L.takeRight null x y = (L'.setChild .right y (L'.child .right x)).setParent (L'.child .right x) y := by
    rw [takeRight, isL']
  have child : ∀ q, q ≠ y → ∀ e, (L.takeRight null x y).child e q = L'.child e q := by
    intro q other e
    rw [edits, setParent_child, setChild_child_ne other]
  have parent : ∀ q, q ≠ L'.child .right x → (L.takeRight null x y).parent q = L'.parent q := by
    intro q other
    rw [edits, setParent_parent_ne other, setChild_parent]
  -- the root of the right subtree is none of the nodes outside it
  have offRight : ∀ q, q ≠ null → q ∉ inorder (plug path t) → q ≠ L'.child .right x := by
    rintro q real off rfl
    exact off (right.mem_of_ne_null real)
  have rightLink : (L.takeRight null x y).child .right y = L'.child .right x := by
    rw [edits, setParent_child, setChild_child]
  refine ⟨?_, ?_, ?_⟩
  · rw [parent x (offRight x realX xR), top]
  · rw [child x xNeY]
    refine left.congr fun q member => ⟨child q fun same => ?_, parent q (offRight q (left.ne_null q member) ?_)⟩
    · exact lr q member y (.inl rfl) same
    · exact fun inR => lr q member q (.inr inR) rfl
  · rw [rightLink]
    refine right.reparent nodupR ?_ ?_ ?_
    · rintro q member e
      exact child q (fun same => yR (same ▸ member)) e
    · intro _
      rw [edits, setParent_parent]
    · exact fun q _ other => parent q other

end Edits

end Links

/-! ## Search -/

section Search

variable {α : Type u} {κ : Type v} [LinearOrder κ] (key : α → κ) (k : κ)

/-- The way to the node with the key, or to where it belongs. -/
def locate : Path α → BinaryTree α → Path α × BinaryTree α
  | path, .nil => (path, .nil)
  | path, .node x l r =>
      if k = key x then (path, .node x l r)
      else if key x < k then locate (⟨.right, x, l⟩ :: path) r
      else locate (⟨.left, x, r⟩ :: path) l

variable {key k} {path : Path α} {t : BinaryTree α}

theorem locate_plug (key : α → κ) (k : κ) (path : Path α) (t : BinaryTree α) : plug (locate key k path t).1 (locate key k path t).2 = plug path t := by
  fun_induction locate key k path t with
  | case1 => rfl
  | case2 => rfl
  | case3 path x l r _ _ ih => exact ih
  | case4 path x l r _ _ ih => exact ih

theorem locate_hit (key : α → κ) (k : κ) (path : Path α) (t : BinaryTree α) :
    (locate key k path t).2 = .nil ∨ ∃ x l r, (locate key k path t).2 = .node x l r ∧ key x = k := by
  fun_induction locate key k path t with
  | case1 => exact .inl rfl
  | case2 path x l r here => exact .inr ⟨x, l, r, rfl, here.symm⟩
  | case3 path x l r _ _ ih => exact ih
  | case4 path x l r _ _ ih => exact ih

theorem locate_bounds (key : α → κ) (k : κ) (path : Path α) (t : BinaryTree α)
    (sorted : (inorder (plug path t)).Pairwise (key · < key ·))
    (below : ∀ y ∈ before path, key y < k) (above : ∀ y ∈ after path, k < key y) :
    (∀ y ∈ before (locate key k path t).1, key y < k) ∧ ∀ y ∈ after (locate key k path t).1, k < key y := by
  fun_induction locate key k path t with
  | case1 => exact ⟨below, above⟩
  | case2 => exact ⟨below, above⟩
  | case3 path x l r _ less ih =>
      refine ih sorted ?_ above
      -- what stands before `x` in its subtree has a smaller key
      have smaller : ∀ y ∈ inorder l, key y < key x := by
        rw [inorder_plug, List.pairwise_append, List.pairwise_append] at sorted
        have ordered := List.pairwise_append.mp sorted.1.2.1
        exact fun y member => ordered.2.2 y member x (List.mem_cons_self ..)
      intro y member
      simp only [before, List.mem_append, List.mem_singleton] at member
      obtain (member | member) | rfl := member
      · exact below y member
      · exact (smaller y member).trans less
      · exact less
  | case4 path x l r other notLess ih =>
      refine ih sorted below ?_
      have less : k < key x := lt_of_le_of_ne (not_lt.mp notLess) other
      have greater : ∀ y ∈ inorder r, key x < key y := by
        rw [inorder_plug, List.pairwise_append, List.pairwise_append] at sorted
        have ordered := List.pairwise_append.mp sorted.1.2.1
        exact (List.pairwise_cons.mp ordered.2.1).1
      intro y member
      simp only [after, List.cons_append, List.mem_cons, List.mem_append] at member
      obtain rfl | member | member := member
      · exact less
      · exact less.trans (greater y member)
      · exact above y member

end Search

end SystemsLabs.Theory.LinkedTree
