/-
# SystemsLabs.Theory.Lru -- queues in order of last use

A queue lists its entries from the least to the most recently used; its front is given up
when room is needed.  `dropped weight need l` is the shortest front of `l` of total weight
at least `need` and `kept weight need l` is what stays:

* `dropped_append_kept`: together they are the queue;
* `le_load_dropped`, `dropped_shortest`: the front is heavy enough and no longer than any
  other that is;
* `load_dropped_eq_iff`: when it has exactly the weight asked for.

For the order itself the entries carry the time of their last use.  `Recent key t l` says
that at time `t` the queue is ordered by it and holds each key once; `Recent.snoc`,
`Recent.touch` and `Recent.sublist` keep that when an entry is added, used or given up.
-/
import Mathlib

namespace SystemsLabs.Theory.Lru

set_option autoImplicit false

universe u v

variable {α : Type u}

/-! ## Giving up the front -/

section Shedding

variable (weight : α → Nat)

/-- The total weight. -/
def load (l : List α) : Nat := (l.map weight).sum

/-- The shortest front of total weight at least `need`. -/
def dropped : Nat → List α → List α
  | _, [] => []
  | need, x :: l => if need = 0 then [] else x :: dropped (need - weight x) l

/-- What stays when the front of weight `need` goes. -/
def kept : Nat → List α → List α
  | _, [] => []
  | need, x :: l => if need = 0 then x :: l else kept (need - weight x) l

@[simp] theorem load_nil : load weight [] = 0 := rfl

@[simp] theorem load_cons (x : α) (l : List α) : load weight (x :: l) = weight x + load weight l := by
  simp [load]

@[simp] theorem load_append (l l' : List α) :
    load weight (l ++ l') = load weight l + load weight l' := by
  simp [load]

@[simp] theorem dropped_zero (l : List α) : dropped weight 0 l = [] := by
  cases l <;> rfl

@[simp] theorem kept_zero (l : List α) : kept weight 0 l = l := by
  cases l <;> rfl

theorem dropped_append_kept (need : Nat) (l : List α) :
    dropped weight need l ++ kept weight need l = l := by
  induction l generalizing need with
  | nil => rfl
  | cons x l ih =>
      unfold dropped kept
      split
      · rfl
      · rw [List.cons_append, ih]

theorem load_dropped_add_kept (need : Nat) (l : List α) :
    load weight (dropped weight need l) + load weight (kept weight need l) = load weight l := by
  rw [← load_append, dropped_append_kept]

theorem kept_sublist (need : Nat) (l : List α) : (kept weight need l).Sublist l := by
  have suffix : kept weight need l <:+ l := ⟨_, dropped_append_kept weight need l⟩
  exact suffix.sublist

variable {weight} {need : Nat} {l pre : List α}

theorem le_load_dropped (enough : need ≤ load weight l) :
    need ≤ load weight (dropped weight need l) := by
  induction l generalizing need with
  | nil => exact enough
  | cons x l ih =>
      unfold dropped
      rw [load_cons] at enough
      split
      · omega
      · rw [load_cons]
        have rest : need - weight x ≤ load weight (dropped weight (need - weight x) l) := ih (by omega)
        omega

theorem load_le_of_prefix (isPrefix : pre <+: l) : load weight pre ≤ load weight l := by
  obtain ⟨post, rfl⟩ := isPrefix
  rw [load_append]
  exact Nat.le_add_right _ _

/-- No front that is heavy enough is shorter. -/
theorem dropped_shortest (isPrefix : pre <+: l) (enough : need ≤ load weight pre) :
    dropped weight need l <+: pre := by
  induction l generalizing need pre with
  | nil => exact List.nil_prefix
  | cons x l ih =>
      unfold dropped
      split
      · exact List.nil_prefix
      · cases pre with
        | nil =>
            rw [load_nil] at enough
            omega
        | cons y pre =>
            obtain ⟨rfl, rest⟩ := List.cons_prefix_cons.mp isPrefix
            rw [load_cons] at enough
            exact List.cons_prefix_cons.mpr ⟨rfl, ih rest (by omega)⟩

/-- The front has exactly the weight asked for where some front has. -/
theorem load_dropped_eq_iff (enough : need ≤ load weight l) :
    load weight (dropped weight need l) = need ↔ ∃ pre, pre <+: l ∧ load weight pre = need := by
  constructor
  · intro isDrop
    exact ⟨_, ⟨_, dropped_append_kept weight need l⟩, isDrop⟩
  · rintro ⟨pre, isPrefix, rfl⟩
    apply le_antisymm
    · exact load_le_of_prefix (dropped_shortest isPrefix le_rfl)
    · exact le_load_dropped enough

/-- What stays of a queue that is read through `f`. -/
theorem kept_map {β : Type v} (f : β → α) (need : Nat) (l : List β) :
    kept weight need (l.map f) = (kept (fun x => weight (f x)) need l).map f := by
  induction l generalizing need with
  | nil => rfl
  | cons x l ih =>
      rw [List.map_cons]
      unfold kept
      split
      · rfl
      · exact ih _

theorem load_map {β : Type v} (f : β → α) (l : List β) :
    load weight (l.map f) = load (fun x => weight (f x)) l := by
  rw [load, load, List.map_map]
  rfl

end Shedding

/-! ## The order of last use -/

section Recency

variable {κ : Type v} (key : α → κ)

/-- At time `t` the queue is ordered by the time of last use and holds each key once. -/
structure Recent (t : Nat) (l : List (α × Nat)) : Prop where
  ordered : l.Pairwise fun x y => x.2 < y.2
  past : ∀ x ∈ l, x.2 < t
  distinct : (l.map fun x => key x.1).Nodup

variable {key} {t : Nat} {l l' pre post : List (α × Nat)} {x : α × Nat} {y : α}

theorem Recent.sublist (recent : Recent key t l) (sub : l'.Sublist l) : Recent key t l' where
  ordered := recent.ordered.sublist sub
  past := fun x member => recent.past x (sub.subset member)
  distinct := recent.distinct.sublist (sub.map _)

theorem Recent.later {t' : Nat} (recent : Recent key t l) (le : t ≤ t') : Recent key t' l where
  ordered := recent.ordered
  past := fun x member => (recent.past x member).trans_le le
  distinct := recent.distinct

/-- A new entry. -/
theorem Recent.snoc (recent : Recent key t l) (fresh : ∀ x ∈ l, key x.1 ≠ key y) :
    Recent key (t + 1) (l ++ [(y, t)]) where
  ordered := by
    refine List.pairwise_append.mpr ⟨recent.ordered, List.pairwise_singleton _ _, ?_⟩
    intro x member z last
    obtain rfl := List.mem_singleton.mp last
    exact recent.past x member
  past := by
    intro x member
    rcases List.mem_append.mp member with old | last
    · exact (recent.past x old).trans (Nat.lt_succ_self t)
    · obtain rfl := List.mem_singleton.mp last
      exact Nat.lt_succ_self t
  distinct := by
    rw [List.map_append, List.nodup_append']
    refine ⟨recent.distinct, List.nodup_singleton _, ?_⟩
    intro k old last
    obtain ⟨x, member, rfl⟩ := List.mem_map.mp old
    exact fresh x member (List.mem_singleton.mp last)

variable [DecidableEq κ]

/-- The entries with key `k` are used at time `t` and go to the end. -/
def touch (key : α → κ) (k : κ) (t : Nat) (l : List (α × Nat)) : List (α × Nat) :=
  l.filter (fun x => key x.1 ≠ k) ++ (l.filter fun x => key x.1 = k).map fun x => (x.1, t)

theorem touch_split (distinct : ((pre ++ x :: post).map fun x => key x.1).Nodup) (t : Nat) :
    touch key (key x.1) t (pre ++ x :: post) = pre ++ post ++ [(x.1, t)] := by
  rw [List.map_append, List.map_cons] at distinct
  have off : ∀ y ∈ pre ++ post, key y.1 ≠ key x.1 := by
    intro y member same
    have fresh := (List.nodup_cons.mp (List.nodup_middle.mp distinct)).1
    apply fresh
    rw [← List.map_append, ← same]
    exact List.mem_map_of_mem member
  have others : ∀ l : List (α × Nat), (∀ y ∈ l, key y.1 ≠ key x.1) →
      l.filter (fun y => key y.1 ≠ key x.1) = l ∧ l.filter (fun y => key y.1 = key x.1) = [] := by
    intro l apart
    constructor
    · exact List.filter_eq_self.mpr fun y member => by simpa using apart y member
    · exact List.filter_eq_nil_iff.mpr fun y member => by simpa using apart y member
  obtain ⟨keepPre, dropPre⟩ := others pre fun y member => off y (List.mem_append_left _ member)
  obtain ⟨keepPost, dropPost⟩ := others post fun y member => off y (List.mem_append_right _ member)
  unfold touch
  rw [List.filter_append, List.filter_append, List.filter_cons_of_neg (by simp),
    List.filter_cons_of_pos (by simp), keepPre, keepPost, dropPre, dropPost]
  rfl

/-- A use of an entry. -/
theorem Recent.touch (recent : Recent key t (pre ++ x :: post)) :
    Recent key (t + 1) (touch key (key x.1) t (pre ++ x :: post)) := by
  rw [touch_split recent.distinct]
  have rest : Recent key t (pre ++ post) :=
    recent.sublist ((List.Sublist.refl pre).append (List.sublist_cons_self x post))
  apply rest.snoc
  intro y member same
  have distinct := recent.distinct
  rw [List.map_append, List.map_cons] at distinct
  apply (List.nodup_cons.mp (List.nodup_middle.mp distinct)).1
  rw [← List.map_append, ← same]
  exact List.mem_map_of_mem member

end Recency

end SystemsLabs.Theory.Lru
