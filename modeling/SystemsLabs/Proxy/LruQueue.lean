/-
# SystemsLabs.Proxy.LruQueue -- the queue in order of last use, over whole runs

`Lru` is what the cache is for: entries in the order of their last use, from which a front
is given up when a new one needs room.  `Serves` connects a cache to it, and every
operation preserves that (`Serves.add`, `Serves.hit`), but for one: `replace_tail` of the
object that `cache_tail` points to links the object to itself and the queue loses it
(`HitsTail`).  So a run without such a hit keeps the queue well formed (`lru_queue`).
-/
import SystemsLabs.Proxy.ReplaceTail
import SystemsLabs.Theory.Runs

namespace SystemsLabs.Proxy

open SystemsLabs.Theory.Lru SystemsLabs.Theory.Runs

set_option autoImplicit false

/-- An entry of the cache, without its place in memory. -/
structure Entry where
  key : String
  value : List UInt8
  len : Nat
deriving DecidableEq, Repr

def Node.entry (x : Node) : Entry := ⟨x.key, x.value, x.len⟩

/-- An operation on the cache, and the address at which `malloc` places a new object. -/
inductive CacheOp where
  | add (key : String) (value : List UInt8) (len webObj : Nat)
  | hit (key : String)
deriving DecidableEq, Repr

/-- Entries with the times of their last use, the least recently used one first. -/
structure Lru where
  entries : List (Entry × Nat)
  clock : Nat
deriving DecidableEq, Repr

namespace Lru

def empty : Lru := ⟨[], 0⟩

/-- The bytes that have to be given up for `len` new ones. -/
def toFree (s : Lru) (len : Nat) : Nat :=
  if load (fun x : Entry × Nat => x.1.len) s.entries + len > maxCacheSize then len - 1 else 0

/-- A new entry goes to the end; an entry that is there stays where it is. -/
def add (s : Lru) (e : Entry) : Lru :=
  if s.entries.any fun x => x.1.key = e.key then { s with clock := s.clock + 1 }
  else ⟨kept (fun x => x.1.len) (s.toFree e.len) s.entries ++ [(e, s.clock)], s.clock + 1⟩

/-- An entry that is used goes to the end. -/
def hit (s : Lru) (key : String) : Lru := ⟨touch Entry.key key s.clock s.entries, s.clock + 1⟩

def step (s : Lru) : CacheOp → Lru
  | .add key value len _ => s.add ⟨key, value, len⟩
  | .hit key => s.hit key

end Lru

namespace Cache

/-- The bytes of the live values. -/
def liveBytes (c : Cache) : Nat := (c.objs.entries.map fun e => e.2.len).sum

/-- The contract of `malloc`: a new object is no live one, and the live values are disjoint
blocks of memory, as is the new one. -/
def Fresh (c : Cache) (len webObj : Nat) : Prop :=
  webObj ≠ 0 ∧ webObj ∉ c.objs ∧ c.liveBytes + len < sizeMod

/-- An object to be added is small, and a hit finds its entry. -/
def Allowed (c : Cache) : CacheOp → Prop
  | .add _ _ len webObj => len ≤ maxObjectSize ∧ c.Fresh len webObj
  | .hit key => c.cacheFind key ≠ some 0

instance (c : Cache) (len webObj : Nat) : Decidable (c.Fresh len webObj) :=
  inferInstanceAs (Decidable (_ ∧ _ ∧ _))

instance (c : Cache) : (op : CacheOp) → Decidable (c.Allowed op)
  | .add _ _ len webObj => inferInstanceAs (Decidable (len ≤ maxObjectSize ∧ c.Fresh len webObj))
  | .hit key => inferInstanceAs (Decidable (c.cacheFind key ≠ some 0))

/-- One operation; a hit is `cacheFind` and then `replace_tail` of what it returned. -/
def step (c : Cache) : CacheOp → Option Cache
  | .add key value len webObj => c.cacheAdd key value len webObj
  | .hit key => (c.cacheFind key).bind c.replaceTail

/-- The operation is a hit on the object that `cache_tail` points to. -/
def HitsTail (c : Cache) : CacheOp → Prop
  | .add .. => False
  | .hit key => c.cacheFind key = some c.tail

instance (c : Cache) : (op : CacheOp) → Decidable (c.HitsTail op)
  | .add .. => inferInstanceAs (Decidable False)
  | .hit key => inferInstanceAs (Decidable (c.cacheFind key = some c.tail))

variable {c c' : Cache} {q : List Node} {s : Lru} {key : String} {value : List UInt8}
  {len webObj a : Nat}

/-- The objects of the queue are among the live ones. -/
theorem Chain.load_le (chain : c.Chain q) : load Node.len q ≤ c.liveBytes := by
  obtain ⟨pairs, isPairs⟩ : ∃ pairs : List (Sigma fun _ : Nat => CacheObj), pairs =
      q.map fun x => ⟨x.addr, x.key, x.value, x.len, c.next x.addr⟩ := ⟨_, rfl⟩
  have distinct : pairs.Nodup := by
    have addrs : pairs.map Sigma.fst = q.map Node.addr := by
      rw [isPairs, List.map_map]
      rfl
    exact List.Nodup.of_map Sigma.fst (addrs ▸ chain.reaches.nodup)
  have sub : pairs ⊆ c.objs.entries := by
    rw [isPairs]
    intro pair member
    obtain ⟨x, inQ, rfl⟩ := List.mem_map.mp member
    exact AList.mem_lookup_iff.mp (lookup_eq_of_node (chain.live x inQ)).2
  obtain ⟨pairs', perm, sublist⟩ := List.subperm_of_subset distinct sub
  have sum : load Node.len q = (pairs'.map fun e => e.2.len).sum := by
    rw [(perm.map _).sum_eq, isPairs, List.map_map]
    rfl
  rw [sum, liveBytes]
  exact (sublist.map _).sum_le_sum fun _ _ => Nat.zero_le _

/-! ## One operation -/

/-- The queue `q` of the cache holds the entries of `s`. -/
structure Serves (c : Cache) (q : List Node) (s : Lru) : Prop where
  queue : c.Queue q
  entries : s.entries.map Prod.fst = q.map Node.entry
  recent : Recent Entry.key s.clock s.entries
  size : c.size = load Node.len q

theorem Serves.load_eq (serves : Serves c q s) :
    load (fun x : Entry × Nat => x.1.len) s.entries = load Node.len q := by
  have same := congrArg (load Entry.len) serves.entries
  rw [load_map, load_map] at same
  exact same

theorem Serves.any_key (serves : Serves c q s) (key : String) :
    (s.entries.any fun x => x.1.key = key) = true ↔ ∃ x ∈ q, x.key = key := by
  have same := congrArg (List.map Entry.key) serves.entries
  rw [List.map_map, List.map_map] at same
  have mem : key ∈ s.entries.map (Entry.key ∘ Prod.fst) ↔ key ∈ q.map (Entry.key ∘ Node.entry) := by
    rw [same]
  simpa [Node.entry] using mem

/-- **An add** either finds the key or inserts the entry. -/
theorem Serves.add (serves : Serves c q s) (small : len ≤ maxObjectSize) (fresh : c.Fresh len webObj) :
    ∃ c' q', c.cacheAdd key value len webObj = some c' ∧ Serves c' q' (s.add ⟨key, value, len⟩) := by
  have queue := serves.queue
  by_cases present : ∃ x ∈ q, x.key = key
  · obtain ⟨a, found⟩ : ∃ a, c.cacheFind key = some a := ⟨_, queue.reaches.cacheFind key⟩
    have nonnull : a ≠ 0 := by
      rintro rfl
      obtain ⟨x, member, isKey⟩ := present
      exact queue.reaches.cacheFind_eq_zero_iff.mp found x member isKey
    refine ⟨c, q, cacheAdd_found found nonnull, ?_⟩
    rw [Lru.add, if_pos ((serves.any_key key).mpr present)]
    exact ⟨queue, serves.entries, serves.recent.later (Nat.le_succ _), serves.size⟩
  · have missing : c.cacheFind key = some 0 := queue.reaches.cacheFind_eq_zero_iff.mpr fun x member isKey =>
      present ⟨x, member, isKey⟩
    obtain ⟨nonnull, new, room⟩ := fresh
    have size := serves.size
    have bytes := queue.load_le
    have fits : c.size + len < sizeMod := by omega
    have toFree : c.toFree len = s.toFree len := by
      rw [toFree_eq fits, Lru.toFree, serves.load_eq, size]
    obtain ⟨c', step, queue', -, size'⟩ :=
      queue.add_new size ⟨webObj, key, value, len⟩ missing nonnull new small fits
    refine ⟨c', _, step, ⟨queue', ?_, ?_, size'⟩⟩
    · rw [Lru.add, if_neg ((serves.any_key key).not.mpr present)]
      have keptEntries := congrArg (kept Entry.len (s.toFree len)) serves.entries
      rw [kept_map, kept_map] at keptEntries
      rw [List.map_append, List.map_append, toFree]
      exact congrArg (· ++ [⟨key, value, len⟩]) keptEntries
    · rw [Lru.add, if_neg ((serves.any_key key).not.mpr present)]
      apply (serves.recent.sublist (kept_sublist _ _ _)).snoc
      intro x member isKey
      have inEntries := (kept_sublist _ _ _).subset member
      apply present
      rw [← serves.any_key, List.any_eq_true]
      exact ⟨x, inEntries, by simpa using isKey⟩

/-- **A hit** moves its entry to the end, unless it is the last one. -/
theorem Serves.hit (serves : Serves c q s) (found : c.cacheFind key = some a) (nonnull : a ≠ 0)
    (notTail : a ≠ c.tail) : ∃ c' q', c.replaceTail a = some c' ∧ Serves c' q' (s.hit key) := by
  obtain ⟨x, member, rfl, isKey⟩ := serves.queue.reaches.of_cacheFind found nonnull
  obtain ⟨pre, post, rfl⟩ := List.append_of_mem member
  have notLast : post ≠ [] := by
    rintro rfl
    exact notTail (serves.queue.tail x (by simp)).symm
  obtain ⟨c', step, queue', -, size⟩ := serves.queue.replaceTail notLast
  have entries := serves.entries
  rw [List.map_append, List.map_cons] at entries
  obtain ⟨before, rest, split, isPre, isRest⟩ := List.map_eq_append_iff.mp entries
  obtain ⟨y, after, rfl, isEntry, isPost⟩ := List.map_eq_cons_iff.mp isRest
  have sameKey : y.1.key = key := by
    rw [isEntry, ← isKey]
    rfl
  have recent := serves.recent
  rw [split] at recent
  have moved : (s.hit key).entries = before ++ after ++ [(y.1, s.clock)] := by
    rw [Lru.hit, split, ← sameKey]
    exact touch_split recent.distinct s.clock
  refine ⟨c', _, step, ⟨queue', ?_, ?_, ?_⟩⟩
  · rw [moved]
    simp [isPre, isPost, isEntry]
  · rw [Lru.hit, split, ← sameKey]
    exact recent.touch
  · rw [size, serves.size]
    simp only [load_append, load_cons, load_nil]
    omega

/-- One operation that is no hit on the last object. -/
theorem Serves.step {op : CacheOp} (serves : Serves c q s) (allowed : c.Allowed op)
    (notTail : ¬ c.HitsTail op) : ∃ c' q', c.step op = some c' ∧ Serves c' q' (s.step op) := by
  cases op with
  | add key value len webObj => exact serves.add allowed.1 allowed.2
  | hit key =>
      obtain ⟨a, found⟩ : ∃ a, c.cacheFind key = some a := ⟨_, serves.queue.reaches.cacheFind key⟩
      have nonnull : a ≠ 0 := by
        rintro rfl
        exact allowed found
      have other : a ≠ c.tail := by
        rintro rfl
        exact notTail found
      obtain ⟨c', q', step, serves'⟩ := serves.hit found nonnull other
      refine ⟨c', q', ?_, serves'⟩
      show (c.cacheFind key).bind c.replaceTail = some c'
      rw [found]
      exact step

/-! ## Runs -/

/-- The queue is well formed, holds the entries of `s` in the order of their last use, and
no add runs off its end. -/
structure LruQueue (c : Cache) (s : Lru) : Prop where
  queue : ∃ q, c.Queue q ∧ q.map Node.entry = s.entries.map Prod.fst
  ordered : s.entries.Pairwise fun x y => x.2 < y.2
  distinct : (s.entries.map fun x => x.1.key).Nodup
  head : c.head = 0 ↔ s.entries = []
  size : c.size = (s.entries.map fun x => x.1.len).sum
  findable : ∀ x ∈ s.entries, ∃ a y, c.cacheFind x.1.key = some a ∧ c.node a = some y ∧ y.entry = x.1
  returns : ∀ key value len webObj, c.Allowed (.add key value len webObj) →
    (c.step (.add key value len webObj)).isSome = true

theorem Serves.lruQueue (serves : Serves c q s) : LruQueue c s where
  queue := ⟨q, serves.queue, serves.entries.symm⟩
  ordered := serves.recent.ordered
  distinct := serves.recent.distinct
  head := by
    rw [serves.queue.reaches.head_eq_zero_iff, ← List.map_eq_nil_iff (f := Node.entry), ← serves.entries,
      List.map_eq_nil_iff]
  size := serves.size.trans serves.load_eq.symm
  findable := by
    intro x member
    have inQueue : x.1 ∈ q.map Node.entry := by
      rw [← serves.entries]
      exact List.mem_map_of_mem member
    obtain ⟨z, inQ, isEntry⟩ := List.mem_map.mp inQueue
    have isKey : z.key = x.1.key := congrArg Entry.key isEntry
    obtain ⟨a, found⟩ : ∃ a, c.cacheFind x.1.key = some a := ⟨_, serves.queue.reaches.cacheFind _⟩
    have nonnull : a ≠ 0 := by
      rintro rfl
      exact serves.queue.reaches.cacheFind_eq_zero_iff.mp found z inQ isKey
    obtain ⟨y, inQ', rfl, sameKey⟩ := serves.queue.reaches.of_cacheFind found nonnull
    refine ⟨y.addr, y, found, serves.queue.live y inQ', ?_⟩
    have distinct := serves.recent.distinct
    have keys := congrArg (List.map Entry.key) serves.entries
    rw [List.map_map, List.map_map] at keys
    have distinct : (q.map (Entry.key ∘ Node.entry)).Nodup := by
      rw [← keys]
      exact distinct
    rw [← isEntry]
    exact congrArg Node.entry (List.inj_on_of_nodup_map distinct inQ' inQ (sameKey.trans isKey.symm))
  returns := by
    intro key value len webObj allowed
    obtain ⟨c', -, step, -⟩ := serves.step allowed id
    rw [step]
    rfl

theorem empty_serves : Serves empty [] Lru.empty where
  queue := ⟨⟨rfl, by simp, AList.notMem_empty 0, by simp⟩, by simp⟩
  entries := rfl
  recent := ⟨List.Pairwise.nil, by simp [Lru.empty], List.nodup_nil⟩
  size := rfl

/-- **The queue is well formed and in order of last use** in every state that is reached
without a hit on the last object. -/
theorem lru_queue {ops : List CacheOp} (run : Run (fun c op c' => c.Allowed op ∧ ¬ c.HitsTail op ∧
    c.step op = some c') empty ops c) : LruQueue c (ops.foldl Lru.step Lru.empty) := by
  have serves : ∃ q, Serves c q (ops.foldl Lru.step Lru.empty) := by
    refine run.simulates (fun c s => ∃ q, Serves c q s) ⟨[], empty_serves⟩ ?_
    rintro c s op c' ⟨q, serves⟩ ⟨allowed, notTail, step⟩
    obtain ⟨c₁, q', step', serves'⟩ := serves.step allowed notTail
    obtain rfl : c₁ = c' := Option.some.inj (step'.symm.trans step)
    exact ⟨q', serves'⟩
  obtain ⟨q, serves⟩ := serves
  exact serves.lruQueue

/-- Two entries, of which the first is hit and found again. -/
def touchingOps : List CacheOp := [.add "a" [1] 1 16, .add "b" [2, 3] 2 48, .hit "a"]

theorem lru_queue_touching : ∃ c, Run (fun c op c' => c.Allowed op ∧ ¬ c.HitsTail op ∧
    c.step op = some c') empty touchingOps c ∧ LruQueue c (touchingOps.foldl Lru.step Lru.empty) := by
  have returns : (touchingOps.foldlM (fun (c : Cache) op =>
      if c.Allowed op ∧ ¬ c.HitsTail op then c.step op else none) empty).isSome = true := by
    decide +kernel
  obtain ⟨c, computed⟩ := Option.isSome_iff_exists.mp returns
  have run : Run (fun (c : Cache) op c' => c.Allowed op ∧ ¬ c.HitsTail op ∧ c.step op = some c')
      empty touchingOps c := (Run.of_guarded computed).mono fun _ _ _ => and_assoc.mp
  exact ⟨c, run, lru_queue run⟩

/-- The only entry is hit: the queue is empty afterwards. -/
def losingOps : List CacheOp := [.add "a" [1] 1 16, .hit "a"]

theorem lru_queue_counterexample : ¬ ∀ (ops : List CacheOp) (c : Cache),
    Run (fun c op c' => c.Allowed op ∧ c.step op = some c') empty ops c →
      LruQueue c (ops.foldl Lru.step Lru.empty) := by
  intro claim
  have lost : (losingOps.foldlM (fun (c : Cache) op =>
      if c.Allowed op then c.step op else none) empty).map head = some 0 := by
    decide +kernel
  obtain ⟨c, computed, isNull⟩ := Option.map_eq_some_iff.mp lost
  have isEmpty := (claim losingOps c (Run.of_guarded computed)).head.mp isNull
  have nonempty : (losingOps.foldl Lru.step Lru.empty).entries ≠ [] := by decide +kernel
  exact nonempty isEmpty

end Cache

end SystemsLabs.Proxy
