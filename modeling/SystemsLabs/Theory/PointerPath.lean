/-
# SystemsLabs.Theory.PointerPath -- linked lists as paths of a successor function

A linked structure is read through a function `next : α → α`.  `Path next a l b`
says that following `next` from `a` visits exactly the nodes of `l`, in order, and
then stands at `b`.  A null-terminated list is a path that ends at the null node.

* `path_append` and `path_append_cons` split a path at a node;
* `Path.congr` is the frame rule: a path survives every update off its nodes;
* `Path.nodup` and `Path.unique`: a path to a node it does not visit is acyclic and
  is the only one;
* `Path.unlink`, `Path.push`, `Path.snoc` and `Path.insert` are the edits.

`TwoWay` is a doubly linked list: a path forward, and its reversal backward.
-/
import Mathlib.Data.List.Basic
import Mathlib.Data.List.Nodup
import Mathlib.Tactic.Common

namespace SystemsLabs.Theory.PointerPath

set_option autoImplicit false

universe u

variable {α : Type u}

/-- In a list without repetition a node differs from every other member. -/
theorem ne_of_nodup_middle {pre post : List α} {x : α} (nodup : (pre ++ x :: post).Nodup) :
    ∀ y ∈ pre ++ post, y ≠ x := by
  rintro y member rfl
  exact (List.nodup_cons.mp (List.nodup_middle.mp nodup)).1 member

/-- Following `next` from `a` visits exactly `l` and arrives at `b`. -/
def Path (next : α → α) : α → List α → α → Prop
  | a, [], b => a = b
  | a, x :: l, b => a = x ∧ Path next (next x) l b

variable {next next' prev prev' : α → α} {a a' b x : α} {l l' pre post : List α}

@[simp] theorem path_nil : Path next a [] b ↔ a = b := Iff.rfl

@[simp] theorem path_cons : Path next a (x :: l) b ↔ a = x ∧ Path next (next x) l b := Iff.rfl

theorem path_append {l₁ l₂ : List α} :
    Path next a (l₁ ++ l₂) b ↔ ∃ c, Path next a l₁ c ∧ Path next c l₂ b := by
  induction l₁ generalizing a with
  | nil => simp
  | cons y l₁ ih => simp only [List.cons_append, path_cons, ih, and_assoc, exists_and_left]

theorem path_append_cons {l₁ l₂ : List α} :
    Path next a (l₁ ++ x :: l₂) b ↔ Path next a l₁ x ∧ Path next (next x) l₂ b := by
  rw [path_append]
  constructor
  · rintro ⟨c, before, rfl, after⟩
    exact ⟨before, after⟩
  · rintro ⟨before, after⟩
    exact ⟨x, before, rfl, after⟩

/-- A path is unaffected by changes of `next` off its nodes. -/
theorem Path.congr (path : Path next a l b) (same : ∀ y ∈ l, next' y = next y) :
    Path next' a l b := by
  induction l generalizing a with
  | nil => exact path
  | cons y l ih =>
      obtain ⟨rfl, rest⟩ := path
      rw [path_cons, same a (List.mem_cons_self ..)]
      exact ⟨rfl, ih rest fun z member => same z (List.mem_cons_of_mem _ member)⟩

theorem Path.headD (path : Path next a l b) : l.headD b = a := by
  cases l with
  | nil => exact path.symm
  | cons y l => exact path.1.symm

/-- The head of a path is not a node further on. -/
theorem Path.head_ne (path : Path next a (pre ++ x :: post) b) (nodup : (pre ++ x :: post).Nodup)
    (later : pre ≠ []) : a ≠ x := by
  cases pre with
  | nil => exact absurd rfl later
  | cons y pre =>
      obtain ⟨rfl, -⟩ := path
      exact ne_of_nodup_middle nodup a (List.mem_append_left _ (List.mem_cons_self ..))

/-- Two paths from one node to `b`, neither of which passes through `b`, are one path. -/
theorem Path.unique (path : Path next a l b) (path' : Path next a l' b)
    (off : b ∉ l) (off' : b ∉ l') : l = l' := by
  induction l generalizing a l' with
  | nil =>
      cases l' with
      | nil => rfl
      | cons y l' =>
          have here : b = y := path.symm.trans path'.1
          exact absurd (here ▸ List.mem_cons_self ..) off'
  | cons y l ih =>
      cases l' with
      | nil =>
          have here : b = y := path'.symm.trans path.1
          exact absurd (here ▸ List.mem_cons_self ..) off
      | cons z l' =>
          obtain ⟨rfl, rest⟩ := path
          obtain ⟨rfl, rest'⟩ := path'
          rw [ih rest rest' (fun m => off (List.mem_cons_of_mem _ m))
            (fun m => off' (List.mem_cons_of_mem _ m))]

/-- A path to a node it does not visit is acyclic: were a node visited twice, the
shorter of the two continuations from it would have to equal the longer one. -/
theorem Path.nodup (path : Path next a l b) (off : b ∉ l) : l.Nodup := by
  induction l generalizing a with
  | nil => exact List.nodup_nil
  | cons y l ih =>
      obtain ⟨rfl, rest⟩ := path
      have offRest : b ∉ l := fun m => off (List.mem_cons_of_mem _ m)
      refine List.nodup_cons.mpr ⟨fun again => ?_, ih rest offRest⟩
      obtain ⟨before, after, rfl⟩ := List.append_of_mem again
      have tail := (path_append_cons.mp rest).2
      have same : after = before ++ a :: after :=
        tail.unique rest (fun m => offRest (by simp [m])) offRest
      have longer := congrArg List.length same
      simp only [List.length_append, List.length_cons] at longer
      omega

/-- The head of a path becomes the successor of a new first node. -/
theorem Path.push (path : Path next a l b) (link : next' x = a)
    (same : ∀ y ∈ l, next' y = next y) : Path next' x (x :: l) b :=
  ⟨rfl, link.symm ▸ path.congr same⟩

/-- A path is lengthened at its end by redirecting its last node. -/
theorem Path.snoc {p c : α} (path : Path next a (pre ++ [p]) b) (bypass : next' p = x)
    (link : next' x = c) (same : ∀ y ∈ pre, next' y = next y) :
    Path next' a (pre ++ [p] ++ [x]) c := by
  obtain ⟨before, -⟩ := path_append_cons.mp path
  rw [List.append_assoc, List.singleton_append, path_append_cons, bypass]
  exact ⟨before.congr same, rfl, link⟩

/-- **Removing a node.**  The predecessor, or the head where there is none, takes over
the removed node's successor; nothing else on the path changes. -/
theorem Path.unlink (path : Path next a (pre ++ x :: post) b)
    (nodup : (pre ++ x :: post).Nodup)
    (first : pre = [] → a' = next x) (kept : pre ≠ [] → a' = a)
    (bypass : ∀ p, pre.getLast? = some p → next' p = next x)
    (same : ∀ y ∈ pre ++ post, pre.getLast? ≠ some y → next' y = next y) :
    Path next' a' (pre ++ post) b := by
  obtain ⟨before, after⟩ := path_append_cons.mp path
  rcases List.eq_nil_or_concat' pre with rfl | ⟨front, p, rfl⟩
  · rw [first rfl]
    exact after.congr fun y member => same y member (by simp)
  · have apart : ∀ y ∈ front ++ post, y ≠ p := by
      intro y member
      have distinct : (front ++ p :: (x :: post)).Nodup := by simpa using nodup
      apply ne_of_nodup_middle distinct y
      rw [List.mem_append] at member ⊢
      exact member.imp_right (List.mem_cons_of_mem _)
    have keep : ∀ y ∈ front ++ post, next' y = next y := by
      intro y member
      refine same y ?_ fun last => apart y member ?_
      · rw [List.mem_append] at member ⊢
        exact member.imp_left fun inFront => by simp [inFront]
      · simpa using last.symm
    obtain ⟨toP, -⟩ := path_append_cons.mp before
    rw [kept (by simp), List.append_assoc, List.singleton_append, path_append_cons,
      bypass p (by simp)]
    exact ⟨toP.congr fun y m => keep y (by simp [m]), after.congr fun y m => keep y (by simp [m])⟩

/-- **Inserting a node.**  The predecessor, or the head where there is none, leads to the new
node, which takes over its successor. -/
theorem Path.insert (path : Path next a (pre ++ post) b) (nodup : (pre ++ post).Nodup)
    (link : next' x = post.headD b) (first : pre = [] → a' = x) (kept : pre ≠ [] → a' = a)
    (bypass : ∀ p, pre.getLast? = some p → next' p = x)
    (same : ∀ y ∈ pre ++ post, pre.getLast? ≠ some y → next' y = next y) :
    Path next' a' (pre ++ x :: post) b := by
  obtain ⟨c, before, after⟩ := path_append.mp path
  have link : next' x = c := link.trans after.headD
  rcases List.eq_nil_or_concat' pre with rfl | ⟨front, p, rfl⟩
  · rw [first rfl]
    exact ⟨rfl, link.symm ▸ after.congr fun y member => same y member (by simp)⟩
  · have apart : ∀ y ∈ front ++ post, y ≠ p := by
      intro y member
      apply ne_of_nodup_middle (by simpa using nodup) y member
    have keep : ∀ y ∈ front ++ post, next' y = next y := by
      intro y member
      refine same y ?_ fun last => apart y member ?_
      · rw [List.mem_append] at member ⊢
        exact member.imp_left fun inFront => by simp [inFront]
      · simpa using last.symm
    obtain ⟨toP, -⟩ := path_append_cons.mp before
    rw [kept (by simp), List.append_assoc, List.singleton_append, path_append_cons, bypass p (by simp)]
    refine ⟨toP.congr fun y m => keep y (by simp [m]), rfl, ?_⟩
    exact link.symm ▸ after.congr fun y m => keep y (by simp [m])

/-! ## Ends of a null-terminated list -/

section Ends

variable {null y : α}

theorem head?_of_headD (same : y = l.headD null) (real : l.headD null ≠ null) : l.head? = some y := by
  cases l with
  | nil => exact absurd rfl real
  | cons q l => simp [same]

theorem getLast?_of_getLastD (same : y = l.getLastD null) (real : l.getLastD null ≠ null) :
    l.getLast? = some y := by
  rcases List.eq_nil_or_concat' l with rfl | ⟨front, q, rfl⟩
  · exact absurd rfl real
  · simp [same]

theorem headD_of_head? (first : l.head? = some y) : l.headD null = y := by
  rw [List.headD_eq_head?_getD, first, Option.getD_some]

theorem getLastD_of_getLast? (last : l.getLast? = some y) : l.getLastD null = y := by
  rw [List.getLastD_eq_getLast?, last, Option.getD_some]

theorem headD_mem (real : l.headD null ≠ null) : l.headD null ∈ l :=
  List.mem_of_head? (head?_of_headD rfl real)

theorem getLastD_mem (real : l.getLastD null ≠ null) : l.getLastD null ∈ l :=
  List.mem_of_getLast? (getLast?_of_getLastD rfl real)

end Ends

/-! ## Doubly linked lists -/

/-- `l` is the null-terminated doubly linked list at `head`: `next` runs through it and
`prev` runs through it backward. -/
structure TwoWay (next prev : α → α) (null head : α) (l : List α) : Prop where
  forward : Path next head l null
  backward : Path prev (l.getLastD null) l.reverse null

section TwoWay

variable {null head head' : α}

theorem TwoWay.congr (list : TwoWay next prev null head l)
    (sameNext : ∀ y ∈ l, next' y = next y) (samePrev : ∀ y ∈ l, prev' y = prev y) :
    TwoWay next' prev' null head l :=
  ⟨list.forward.congr sameNext,
    list.backward.congr fun y member => samePrev y (List.mem_reverse.mp member)⟩

/-- What the links of a node hold. -/
theorem TwoWay.links (list : TwoWay next prev null head (pre ++ x :: post)) :
    next x = post.headD null ∧ prev x = pre.getLastD null := by
  refine ⟨((path_append_cons.mp list.forward).2.headD).symm, ?_⟩
  have back := list.backward
  rw [List.reverse_append, List.reverse_cons, List.append_assoc, List.singleton_append,
    path_append_cons] at back
  have := back.2.headD
  rcases List.eq_nil_or_concat' pre with rfl | ⟨front, p, rfl⟩
  · simpa using this.symm
  · simpa [List.getLastD_eq_getLast?] using this.symm

/-- A new first node. -/
theorem TwoWay.push (list : TwoWay next prev null head l)
    (link : next' x = head) (backLink : prev' x = null)
    (oldHead : ∀ y, l.head? = some y → prev' y = x)
    (sameNext : ∀ y ∈ l, next' y = next y)
    (samePrev : ∀ y ∈ l.tail, prev' y = prev y) :
    TwoWay next' prev' null x (x :: l) := by
  refine ⟨list.forward.push link sameNext, ?_⟩
  cases l with
  | nil => simp [backLink]
  | cons y rest =>
      have back := list.backward
      rw [List.reverse_cons, path_append_cons] at back
      have last : (x :: y :: rest).getLastD null = (y :: rest).getLastD null := by
        simp [List.getLastD_eq_getLast?]
      rw [last, List.reverse_cons, List.reverse_cons, List.append_assoc, List.singleton_append,
        path_append_cons, oldHead y rfl]
      exact ⟨back.1.congr fun z member => samePrev z (List.mem_reverse.mp member), rfl, backLink⟩

/-- **Removing a node of a doubly linked list**: the two neighbours, where there are any,
take over its links. -/
theorem TwoWay.unlink (list : TwoWay next prev null head (pre ++ x :: post))
    (nodup : (pre ++ x :: post).Nodup)
    (first : pre = [] → head' = next x) (kept : pre ≠ [] → head' = head)
    (bypass : ∀ p, pre.getLast? = some p → next' p = next x)
    (backBypass : ∀ n, post.head? = some n → prev' n = prev x)
    (sameNext : ∀ y ∈ pre ++ post, pre.getLast? ≠ some y → next' y = next y)
    (samePrev : ∀ y ∈ pre ++ post, post.head? ≠ some y → prev' y = prev y) :
    TwoWay next' prev' null head' (pre ++ post) := by
  refine ⟨list.forward.unlink nodup first kept bypass sameNext, ?_⟩
  have back : Path prev ((pre ++ x :: post).getLastD null) (post.reverse ++ x :: pre.reverse) null := by
    simpa using list.backward
  have backNodup : (post.reverse ++ x :: pre.reverse).Nodup := by
    simpa using List.nodup_reverse.mpr nodup
  rw [List.reverse_append]
  refine back.unlink backNodup ?_ ?_ ?_ ?_
  · intro isLast
    have isLast : post = [] := by simpa using isLast
    subst isLast
    rw [List.append_nil, list.links.2]
  · intro nonempty
    have nonempty : post ≠ [] := by simpa using nonempty
    obtain ⟨n, rest, rfl⟩ := List.exists_cons_of_ne_nil nonempty
    simp [List.getLastD_eq_getLast?]
  · intro n last
    exact backBypass n (by simpa using last)
  · intro y member notLast
    refine samePrev y ?_ (by simpa using notLast)
    rw [List.mem_append, List.mem_reverse, List.mem_reverse] at member
    exact List.mem_append.mpr member.symm

/-- **Inserting a node into a doubly linked list** between two neighbours, where there are any. -/
theorem TwoWay.insert (list : TwoWay next prev null head (pre ++ post)) (nodup : (pre ++ post).Nodup)
    (link : next' x = post.headD null) (backLink : prev' x = pre.getLastD null)
    (first : pre = [] → head' = x) (kept : pre ≠ [] → head' = head)
    (bypass : ∀ p, pre.getLast? = some p → next' p = x)
    (backBypass : ∀ n, post.head? = some n → prev' n = x)
    (sameNext : ∀ y ∈ pre ++ post, pre.getLast? ≠ some y → next' y = next y)
    (samePrev : ∀ y ∈ pre ++ post, post.head? ≠ some y → prev' y = prev y) :
    TwoWay next' prev' null head' (pre ++ x :: post) := by
  refine ⟨list.forward.insert nodup link first kept bypass sameNext, ?_⟩
  have back : Path prev ((pre ++ post).getLastD null) (post.reverse ++ pre.reverse) null := by
    simpa using list.backward
  have backNodup : (post.reverse ++ pre.reverse).Nodup := by
    simpa using List.nodup_reverse.mpr nodup
  have whole : (pre ++ x :: post).reverse = post.reverse ++ x :: pre.reverse := by simp
  rw [whole]
  refine back.insert backNodup ?_ ?_ ?_ ?_ ?_
  · rw [backLink]
    simp [List.getLastD_eq_getLast?, List.headD_eq_head?_getD]
  · intro isLast
    have isLast : post = [] := by simpa using isLast
    subst isLast
    simp
  · intro nonempty
    have nonempty : post ≠ [] := by simpa using nonempty
    obtain ⟨n, rest, rfl⟩ := List.exists_cons_of_ne_nil nonempty
    simp [List.getLastD_eq_getLast?]
  · intro n last
    exact backBypass n (by simpa using last)
  · intro y member notLast
    refine samePrev y ?_ (by simpa using notLast)
    rw [List.mem_append, List.mem_reverse, List.mem_reverse] at member
    exact List.mem_append.mpr member.symm

end TwoWay

end SystemsLabs.Theory.PointerPath
