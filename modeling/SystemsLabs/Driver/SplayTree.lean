/-
# SystemsLabs.Driver.SplayTree -- the splay tree of `stree.c`

The functions of `stree.c` over an explicit state: the nodes that were allocated and not yet
freed, and the fields of `tree_t`.  A pointer is an address and `NULL` is 0.  Where a function
allocates a node, the address that `malloc` answers is an argument.

A function that follows links is an `Option`: `none` is a call that does not return, because
it reads `NULL` or a freed node, because a loop does not end or because it calls `exit`.  A
loop that has taken more steps than there are nodes has met one of them twice and goes on for
ever.

`left_rotate` and `right_rotate` are one function with a side: `rotate d` lifts the child on
the side `d`.
-/
import Mathlib.Algebra.Group.Nat.Defs
import Mathlib.Data.List.AList
import SystemsLabs.Theory.LinkedTree

namespace SystemsLabs.Driver

set_option autoImplicit false

open Theory.LinkedTree

abbrev Addr := UInt64

/-- `node_t` -/
structure TreeNode where
  left : Addr
  right : Addr
  parent : Addr
  key : Int
  record : Addr
deriving DecidableEq, Repr

namespace TreeNode

def child (n : TreeNode) : Side → Addr
  | .left => n.left
  | .right => n.right

def setChild (n : TreeNode) (p : Addr) : Side → TreeNode
  | .left => { n with left := p }
  | .right => { n with right := p }

/-- The child that the searches go on with. -/
def descend (n : TreeNode) (key : Int) : Addr := if key > n.key then n.right else n.left

end TreeNode

/-- The live nodes and `tree_t`. -/
structure SplayTree where
  nodes : AList fun _ : Addr => TreeNode
  root : Addr
  nodeCount : UInt64
  comparisonCount : UInt64

namespace SplayTree

def treeNew : SplayTree := ⟨∅, 0, 0, 0⟩

/-! ## The fields of a node -/

def child (s : SplayTree) (d : Side) (x : Addr) : Option Addr := (s.nodes.lookup x).map (·.child d)

def parent (s : SplayTree) (x : Addr) : Option Addr := (s.nodes.lookup x).map (·.parent)

def key (s : SplayTree) (x : Addr) : Option Int := (s.nodes.lookup x).map (·.key)

def record (s : SplayTree) (x : Addr) : Option Addr := (s.nodes.lookup x).map (·.record)

def setChild (s : SplayTree) (d : Side) (x p : Addr) : Option SplayTree :=
  (s.nodes.lookup x).map fun n => { s with nodes := s.nodes.insert x (n.setChild p d) }

def setParent (s : SplayTree) (x p : Addr) : Option SplayTree :=
  (s.nodes.lookup x).map fun n => { s with nodes := s.nodes.insert x { n with parent := p } }

/-! ## Rotations -/

/-- The test of `x->parent` that the rotations and `replace` share: the pointer that leads to
`u` is set to `v`. -/
def relink (s : SplayTree) (u v : Addr) : Option SplayTree := do
  let p ← s.parent u
  if p = 0 then some { s with root := v }
  else do
    let left ← s.child .left p
    if u = left then s.setChild .left p v else s.setChild .right p v

/-- The first `if (y)` of a rotation. -/
def handOver (s : SplayTree) (d : Side) (x y : Addr) : Option SplayTree := do
  let s ← s.setChild d x (← s.child d.flip y)
  let inner ← s.child d.flip y
  let s ← (if inner = 0 then some s else s.setParent inner x)
  s.setParent y (← s.parent x)

def rotate (d : Side) (s : SplayTree) (x : Addr) : Option SplayTree := do
  let y ← s.child d x
  let s ← (if y = 0 then some s else s.handOver d x y)
  let s ← s.relink x y
  let s ← (if y = 0 then some s else s.setChild d.flip y x)
  s.setParent x y

def leftRotate : SplayTree → Addr → Option SplayTree := rotate .right

def rightRotate : SplayTree → Addr → Option SplayTree := rotate .left

/-! ## `splay` -/

/-- The body of the loop, for a node that has a parent. -/
def splayStep (s : SplayTree) (x : Addr) : Option SplayTree := do
  let p ← s.parent x
  let g ← s.parent p
  let pLeft ← s.child .left p
  if g = 0 then
    if pLeft = x then s.rightRotate p else s.leftRotate p
  else do
    let pRight ← s.child .right p
    let gLeft ← s.child .left g
    let gRight ← s.child .right g
    if pLeft = x ∧ gLeft = p then do
      let s ← s.rightRotate g
      s.rightRotate (← s.parent x)
    else if pRight = x ∧ gRight = p then do
      let s ← s.leftRotate g
      s.leftRotate (← s.parent x)
    else if pLeft = x ∧ gRight = p then do
      let s ← s.rightRotate p
      s.leftRotate (← s.parent x)
    else do
      let s ← s.leftRotate p
      s.rightRotate (← s.parent x)

def splayLoop (x : Addr) : Nat → SplayTree → Option SplayTree
  | 0, _ => none
  | fuel + 1, s => do
      let p ← s.parent x
      if p = 0 then some s
      else do
        let s ← s.splayStep x
        splayLoop x fuel s

def splay (s : SplayTree) (x : Addr) : Option SplayTree :=
  s.splayLoop x (s.nodes.entries.length + 1)

/-! ## Searches -/

/-- The loop of `tree_insert` and `tree_find`: the node with the key or `NULL`, the last node
that was visited, and the comparisons. -/
def searchFrom (s : SplayTree) (key : Int) : Nat → Addr → Addr → UInt64 → Option (Addr × Addr × UInt64)
  | 0, _, _, _ => none
  | fuel + 1, z, p, count =>
      if z = 0 then some (z, p, count)
      else do
        let n ← s.nodes.lookup z
        if key = n.key then some (z, z, count + 1)
        else searchFrom s key fuel (n.descend key) z (count + 2)

def treeFind (s : SplayTree) (key : Int) : Option (Addr × SplayTree) := do
  let (z, _, count) ← s.searchFrom key (s.nodes.entries.length + 1) s.root 0 s.comparisonCount
  let s := { s with comparisonCount := count }
  if z = 0 then some (0, s) else some (← s.record z, s)

/-- The loop of `tree_find_nearest`: the node whose record is the answer. -/
def nearestFrom (s : SplayTree) (key : Int) : Nat → Addr → Addr → UInt64 → Option (Addr × UInt64)
  | 0, _, _, _ => none
  | fuel + 1, z, n, count =>
      if z = 0 then some (n, count)
      else do
        let node ← s.nodes.lookup z
        if key = node.key then some (z, count + 1)
        else if key > node.key then do
          let better ← (if n = 0 then some true else (s.key n).map fun k => decide (k < node.key))
          nearestFrom s key fuel node.right (if better then z else n) (count + 2)
        else nearestFrom s key fuel node.left n (count + 2)

def treeFindNearest (s : SplayTree) (key : Int) : Option (Addr × SplayTree) := do
  let (n, count) ← s.nearestFrom key (s.nodes.entries.length + 1) s.root 0 s.comparisonCount
  let s := { s with comparisonCount := count }
  if n = 0 then some (0, s) else some (← s.record n, s)

/-! ## `tree_insert` -/

/-- The new node `z` becomes a child of `p`, or the root. -/
def attach (s : SplayTree) (p z : Addr) (key : Int) : Option SplayTree :=
  if p = 0 then some { s with root := z }
  else do
    let k ← s.key p
    if k < key then s.setChild .right p z else s.setChild .left p z

def treeInsert (s : SplayTree) (key : Int) (record z : Addr) : Option (Bool × SplayTree) := do
  let (found, p, count) ← s.searchFrom key (s.nodes.entries.length + 1) s.root 0 s.comparisonCount
  let s := { s with comparisonCount := count }
  if found ≠ 0 then some (false, s)
  else if z = 0 then none
  else do
    let s := { s with nodes := s.nodes.insert z ⟨0, 0, p, key, record⟩ }
    let s ← s.attach p z key
    let s ← s.splay z
    some (true, { s with nodeCount := s.nodeCount + 1 })

/-! ## `tree_remove` -/

def replace (s : SplayTree) (u v : Addr) : Option SplayTree := do
  let s ← s.relink u v
  if v = 0 then some s else s.setParent v (← s.parent u)

def subtreeMinimum (s : SplayTree) : Nat → Addr → Option Addr
  | 0, _ => none
  | fuel + 1, u => do
      let left ← s.child .left u
      if left = 0 then some u else subtreeMinimum s fuel left

/-- The loop of `tree_remove`: the node with the key or `NULL`, and the comparisons. -/
def removeFrom (s : SplayTree) (key : Int) : Nat → Addr → UInt64 → Option (Addr × UInt64)
  | 0, _, _ => none
  | fuel + 1, z, count =>
      if z = 0 then some (z, count)
      else do
        let n ← s.nodes.lookup z
        if n.key = key then some (z, count) else removeFrom s key fuel (n.descend key) (count + 1)

/-- The successor `y` of `z` that is not its child leaves its place and takes the right subtree
of `z`. -/
def takeRight (s : SplayTree) (z y : Addr) : Option SplayTree := do
  let s ← s.replace y (← s.child .right y)
  let s ← s.setChild .right y (← s.child .right z)
  s.setParent (← s.child .right y) y

/-- `y` takes the place of `z` and its left subtree. -/
def promote (s : SplayTree) (z y : Addr) : Option SplayTree := do
  let s ← s.replace z y
  let s ← s.setChild .left y (← s.child .left z)
  s.setParent (← s.child .left y) y

/-- The splayed node `z` is taken out of the tree. -/
def unhook (s : SplayTree) (z : Addr) : Option SplayTree := do
  let left ← s.child .left z
  let right ← s.child .right z
  if left = 0 then s.replace z right
  else if right = 0 then s.replace z left
  else do
    let y ← s.subtreeMinimum (s.nodes.entries.length + 1) right
    let p ← s.parent y
    let s ← (if p ≠ z then s.takeRight z y else some s)
    s.promote z y

def treeRemove (s : SplayTree) (key : Int) : Option (Addr × SplayTree) := do
  let (z, count) ← s.removeFrom key (s.nodes.entries.length + 1) s.root s.comparisonCount
  let s := { s with comparisonCount := count }
  if z = 0 then some (0, s)
  else do
    let s ← s.splay z
    let s ← s.unhook z
    let r ← s.record z
    some (r, { s with nodes := s.nodes.erase z, nodeCount := s.nodeCount - 1 })

end SplayTree

end SystemsLabs.Driver
