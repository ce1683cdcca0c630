/-
# SystemsLabs.Proxy.Queue -- the queue that the cache's links hold

`Cache.Reaches c q` says that following `next` from `cache_head` visits exactly the live
objects `q` and ends with `NULL`.  In a `Cache.Chain` they are small enough for the cache;
`Cache.Queue` adds that `cache_tail` is the last of them.  Each cache function has one lemma
about its effect on the chain:

* `Reaches.cacheFind`: the search finds the first object with the key, or `NULL`;
* `Chain.evict`: a front of the chain is freed, or `evict` runs off its end;
* `Reaches.enqueue` and `Reaches.enqueue_lost`: the end of `cacheAdd`, where `cache_tail` is
  the last object and where it is off the chain;
* `Queue.insertNew` and `Chain.insertNew_lost`: the same for the whole insertion.
-/
import SystemsLabs.Proxy.Cache
import SystemsLabs.Theory.Lru
import SystemsLabs.Theory.PointerPath

namespace SystemsLabs.Proxy

open SystemsLabs.Theory.PointerPath SystemsLabs.Theory.Lru

set_option autoImplicit false

/-- An object of the queue, but for its link. -/
structure Node where
  addr : Nat
  key : String
  value : List UInt8
  len : Nat
deriving DecidableEq, Repr

namespace Cache

variable {c c' : Cache} {a b n : Nat}

/-! ## The cache, read as nodes and links -/

def node (c : Cache) (a : Nat) : Option Node :=
  (c.objs.lookup a).map fun o => ⟨a, o.key, o.value, o.len⟩

def next (c : Cache) (a : Nat) : Nat := ((c.objs.lookup a).map CacheObj.next).getD 0

theorem lookup_eq_of_node {x : Node} (live : c.node a = some x) :
    a = x.addr ∧ c.objs.lookup a = some ⟨x.key, x.value, x.len, c.next a⟩ := by
  obtain ⟨o, found, rfl⟩ := Option.map_eq_some_iff.mp live
  refine ⟨rfl, ?_⟩
  rw [found, next, found]
  rfl

theorem node_eq_none_iff : c.node a = none ↔ a ∉ c.objs := by
  rw [node, Option.map_eq_none_iff, AList.lookup_eq_none]

theorem mem_of_node {x : Node} (live : c.node a = some x) : a ∈ c.objs := by
  by_contra off
  rw [node_eq_none_iff.mpr off] at live
  cases live

theorem mem_congr (same : c'.node a = c.node a) : a ∈ c'.objs ↔ a ∈ c.objs := by
  rw [← not_iff_not, ← node_eq_none_iff, ← node_eq_none_iff, same]

/-- What the assignment `a->next = n` changes. -/
structure Rewired (c c' : Cache) (a n : Nat) : Prop where
  node : c'.node = c.node
  next_self : c'.next a = n
  next_of_ne : ∀ b, b ≠ a → c'.next b = c.next b
  head : c'.head = c.head
  tail : c'.tail = c.tail
  size : c'.size = c.size

theorem setNext_rewired (assigned : c.setNext a n = some c') : Rewired c c' a n := by
  obtain ⟨o, found, rfl⟩ := Option.map_eq_some_iff.mp assigned
  refine ⟨?_, ?_, fun b ne => ?_, rfl, rfl, rfl⟩
  · funext b
    unfold node
    by_cases same : b = a
    · subst same
      rw [AList.lookup_insert, found]
      rfl
    · rw [AList.lookup_insert_ne same]
  · rw [next, AList.lookup_insert]
    rfl
  · rw [next, AList.lookup_insert_ne ne, next]

theorem exists_setNext {x : Node} (live : c.node a = some x) (n : Nat) : ∃ c', c.setNext a n = some c' := by
  rw [setNext, (lookup_eq_of_node live).2]
  exact ⟨_, rfl⟩

/-! ## Chains and queues -/

/-- Following `next` from the head visits the live objects `q`, and then `NULL`. -/
structure Reaches (c : Cache) (q : List Node) : Prop where
  path : Path c.next c.head (q.map Node.addr) 0
  live : ∀ x ∈ q, c.node x.addr = some x
  null : 0 ∉ c.objs

/-- Following `next` from the head visits exactly `q`. -/
structure Chain (c : Cache) (q : List Node) : Prop where
  path : Path c.next c.head (q.map Node.addr) 0
  live : ∀ x ∈ q, c.node x.addr = some x
  null : 0 ∉ c.objs
  len_le : ∀ x ∈ q, x.len ≤ maxObjectSize

/-- `q` is the whole queue. -/
structure Queue (c : Cache) (q : List Node) : Prop extends Chain c q where
  tail : ∀ x, q.getLast? = some x → c.tail = x.addr

variable {q pre post : List Node} {x : Node}

theorem Chain.reaches (chain : c.Chain q) : c.Reaches q := ⟨chain.path, chain.live, chain.null⟩

theorem Reaches.chain (reaches : c.Reaches q) (len_le : ∀ x ∈ q, x.len ≤ maxObjectSize) : c.Chain q :=
  ⟨reaches.path, reaches.live, reaches.null, len_le⟩

theorem Reaches.addr_ne_zero (reaches : c.Reaches q) (member : x ∈ q) : x.addr ≠ 0 := by
  intro zero
  apply reaches.null
  rw [← zero]
  exact mem_of_node (reaches.live x member)

theorem Reaches.null_off (reaches : c.Reaches q) : 0 ∉ q.map Node.addr := by
  intro member
  obtain ⟨x, inQ, zero⟩ := List.mem_map.mp member
  exact reaches.addr_ne_zero inQ zero

theorem Reaches.nodup (reaches : c.Reaches q) : (q.map Node.addr).Nodup :=
  reaches.path.nodup reaches.null_off

theorem Reaches.addr_mem (reaches : c.Reaches q) (member : a ∈ q.map Node.addr) : a ∈ c.objs := by
  obtain ⟨x, inQ, rfl⟩ := List.mem_map.mp member
  exact mem_of_node (reaches.live x inQ)

theorem Reaches.length_le (reaches : c.Reaches q) : q.length ≤ c.objs.entries.length := by
  have sub : q.map Node.addr ⊆ c.objs.keys := fun a member =>
    AList.mem_keys.mp (reaches.addr_mem member)
  have short := (List.subperm_of_subset reaches.nodup sub).length_le
  simpa [AList.keys, List.keys] using short

theorem Reaches.head_eq_zero_iff (reaches : c.Reaches q) : c.head = 0 ↔ q = [] := by
  have path := reaches.path
  cases q with
  | nil => exact iff_of_true path rfl
  | cons x q =>
      obtain ⟨first, -⟩ := path
      refine iff_of_false ?_ (by simp)
      rw [first]
      exact reaches.addr_ne_zero (List.mem_cons_self ..)

/-- The frame rule: what is off the chain does not matter. -/
theorem Reaches.congr (reaches : c.Reaches q) (head : c'.head = c.head)
    (node : ∀ a ∈ q.map Node.addr, c'.node a = c.node a)
    (next : ∀ a ∈ q.map Node.addr, c'.next a = c.next a) (null : 0 ∉ c'.objs) : c'.Reaches q where
  path := head ▸ reaches.path.congr next
  live := fun x member => (node _ (List.mem_map_of_mem member)).trans (reaches.live x member)
  null := null

theorem Rewired.null (rewired : Rewired c c' a n) (null : 0 ∉ c.objs) : 0 ∉ c'.objs := by
  rw [← node_eq_none_iff] at null ⊢
  rw [rewired.node, null]

/-- Only one list is reached. -/
theorem Reaches.unique {q' : List Node} (reaches : c.Reaches q) (reaches' : c.Reaches q') : q = q' := by
  have addrs : q.map Node.addr = q'.map Node.addr :=
    reaches.path.unique reaches'.path reaches.null_off reaches'.null_off
  have nodes : ∀ l : List Node, (∀ x ∈ l, c.node x.addr = some x) →
      (l.map Node.addr).map c.node = l.map some := by
    intro l live
    rw [List.map_map]
    exact List.map_congr_left live
  have same := congrArg (List.map c.node) addrs
  rw [nodes q reaches.live, nodes q' reaches'.live] at same
  exact List.map_injective_iff.mpr (fun _ _ eq => Option.some.inj eq) same

/-! ## `cacheFind` -/

theorem findFrom_chain {key : String} {fuel : Nat} (path : Path c.next a (q.map Node.addr) 0)
    (live : ∀ x ∈ q, c.node x.addr = some x) (null : 0 ∉ c.objs) (enough : q.length < fuel) :
    c.findFrom key fuel a = some (((q.find? fun x => x.key = key).map Node.addr).getD 0) := by
  induction q generalizing a fuel with
  | nil =>
      obtain ⟨fuel, rfl⟩ := Nat.exists_eq_add_of_lt enough
      obtain rfl : a = 0 := path
      rfl
  | cons x q ih =>
      obtain ⟨rfl, rest⟩ := path
      cases fuel with
      | zero => exact absurd enough (Nat.not_lt_zero _)
      | succ fuel =>
          have here := live x (List.mem_cons_self ..)
          have found := (lookup_eq_of_node here).2
          have nonnull : x.addr ≠ 0 := by
            intro zero
            rw [zero] at here
            exact null (mem_of_node here)
          have step := ih rest (fun y member => live y (List.mem_cons_of_mem _ member))
            (Nat.lt_of_succ_lt_succ enough)
          unfold findFrom
          rw [if_neg nonnull, found]
          by_cases isKey : x.key = key
          · simp [isKey]
          · simpa [isKey] using step

/-- `cacheFind` returns the first object with the key. -/
theorem Reaches.cacheFind (reaches : c.Reaches q) (key : String) :
    c.cacheFind key = some (((q.find? fun x => x.key = key).map Node.addr).getD 0) :=
  findFrom_chain reaches.path reaches.live reaches.null (Nat.lt_succ_of_le reaches.length_le)

theorem Reaches.cacheFind_eq_zero_iff (reaches : c.Reaches q) {key : String} :
    c.cacheFind key = some 0 ↔ ∀ x ∈ q, x.key ≠ key := by
  rw [reaches.cacheFind key]
  cases found : q.find? fun x => x.key = key with
  | none =>
      apply iff_of_true rfl
      intro x member
      simpa using List.find?_eq_none.mp found x member
  | some x =>
      have member := List.mem_of_find?_eq_some found
      have isKey : x.key = key := by simpa using List.find?_some found
      refine iff_of_false ?_ fun fresh => fresh x member isKey
      intro zero
      exact reaches.addr_ne_zero member (Option.some.inj zero)

theorem Reaches.of_cacheFind (reaches : c.Reaches q) {key : String} (found : c.cacheFind key = some a)
    (nonnull : a ≠ 0) : ∃ x ∈ q, x.addr = a ∧ x.key = key := by
  rw [reaches.cacheFind key] at found
  cases first : q.find? fun x => x.key = key with
  | none =>
      rw [first] at found
      exact absurd (Option.some.inj found).symm nonnull
  | some x =>
      rw [first] at found
      exact ⟨x, List.mem_of_find?_eq_some first, Option.some.inj found,
        by simpa using List.find?_some first⟩

/-! ## `evict` -/

theorem node_erase (objs : c'.objs = c.objs.erase a) (b : Nat) :
    c'.node b = if b = a then none else c.node b := by
  unfold node
  rw [objs]
  split
  · next same =>
    rw [same, AList.lookup_erase]
    rfl
  · next other => rw [AList.lookup_erase_ne other]

theorem next_erase (objs : c'.objs = c.objs.erase a) (other : b ≠ a) : c'.next b = c.next b := by
  unfold next
  rw [objs, AList.lookup_erase_ne other]

/-- What `evict` does to the chain `q` if it has to free `need` bytes. -/
structure Evicted (c c' : Cache) (need : Nat) (q : List Node) : Prop where
  chain : c'.Chain (kept Node.len need q)
  tail : c'.tail = c.tail
  freed : ∀ a ∈ (dropped Node.len need q).map Node.addr, a ∉ c'.objs
  node : ∀ a, a ∉ (dropped Node.len need q).map Node.addr → c'.node a = c.node a
  next : ∀ a, a ∉ (dropped Node.len need q).map Node.addr → c'.next a = c.next a
  size : load Node.len (dropped Node.len need q) ≤ c.size → c.size < sizeMod →
    c'.size = c.size - load Node.len (dropped Node.len need q)

theorem Chain.evicted_zero (chain : c.Chain q) : Evicted c c 0 q where
  chain := by simpa using chain
  tail := rfl
  freed := by simp
  node := fun _ _ => rfl
  next := fun _ _ => rfl
  size := by simp

/-- The list without its first object, once that is freed. -/
theorem Reaches.tail (reaches : c.Reaches (x :: q)) (objs : c'.objs = c.objs.erase x.addr)
    (head : c'.head = c.next x.addr) : c'.Reaches q := by
  have apart : ∀ a ∈ q.map Node.addr, a ≠ x.addr := by
    rintro a member rfl
    exact (List.nodup_cons.mp reaches.nodup).1 member
  refine ⟨?_, fun y member => ?_, ?_⟩
  · rw [head]
    exact reaches.path.2.congr fun a member => next_erase objs (apart a member)
  · rw [node_erase objs, if_neg (apart _ (List.mem_map_of_mem member))]
    exact reaches.live y (List.mem_cons_of_mem _ member)
  · rw [objs, AList.mem_erase]
    exact fun impossible => reaches.null impossible.2

theorem Chain.tail_chain (chain : c.Chain (x :: q)) (objs : c'.objs = c.objs.erase x.addr)
    (head : c'.head = c.next x.addr) : c'.Chain q :=
  (chain.reaches.tail objs head).chain fun y member => chain.len_le y (List.mem_cons_of_mem _ member)

/-- The first pass frees `x`, the others what is still needed. -/
theorem Evicted.cons {need : Nat} {first : Cache} (chain : c.Chain (x :: q)) (positive : need ≠ 0)
    (objs : first.objs = c.objs.erase x.addr) (tail : first.tail = c.tail)
    (size : first.size = sizeSub c.size x.len) (rest : Evicted first c' (need - x.len) q) :
    Evicted c c' need (x :: q) := by
  have drops : dropped Node.len need (x :: q) = x :: dropped Node.len (need - x.len) q := if_neg positive
  have keeps : kept Node.len need (x :: q) = kept Node.len (need - x.len) q := if_neg positive
  have unfreed : x.addr ∉ (dropped Node.len (need - x.len) q).map Node.addr := by
    intro member
    apply (List.nodup_cons.mp chain.reaches.nodup).1
    rw [← dropped_append_kept Node.len (need - x.len) q, List.map_append]
    exact List.mem_append_left _ member
  refine ⟨keeps ▸ rest.chain, rest.tail.trans tail, ?_, ?_, ?_, ?_⟩
  · rw [drops]
    intro a member
    rcases List.mem_cons.mp member with rfl | later
    · rw [← node_eq_none_iff, rest.node _ unfreed, node_erase objs, if_pos rfl]
    · exact rest.freed a later
  · rw [drops]
    intro a off
    obtain ⟨other, off⟩ := not_or.mp (List.mem_cons.not.mp off)
    rw [rest.node a off, node_erase objs, if_neg other]
  · rw [drops]
    intro a off
    obtain ⟨other, off⟩ := not_or.mp (List.mem_cons.not.mp off)
    rw [rest.next a off, next_erase objs other]
  · rw [drops, load_cons]
    intro le fits
    have here : first.size = c.size - x.len := by
      rw [size, sizeSub_of_le (by omega) fits]
    rw [rest.size (by omega) (by omega), here]
    omega

/-- A call that has to free `need` bytes frees a front of the chain, or runs off its end. -/
def Evicts (c : Cache) (need : Nat) (q : List Node) (result : Option Cache) : Prop :=
  (need ≤ load Node.len q → ∃ c', result = some c' ∧ Evicted c c' need q) ∧
    (load Node.len q < need → result = none)

theorem evictLoop_done {objSize fuel aggregSize : Nat} (done : ¬ sizeAdd aggregSize 1 < objSize) :
    evictLoop objSize (fuel + 1) aggregSize c = some c := by
  simp only [evictLoop, if_neg done]

theorem evictLoop_crash {objSize fuel aggregSize : Nat} (more : sizeAdd aggregSize 1 < objSize)
    (off : c.head ∉ c.objs) : evictLoop objSize (fuel + 1) aggregSize c = none := by
  simp [evictLoop, more, AList.lookup_eq_none.mpr off]

theorem evictLoop_more {objSize fuel aggregSize : Nat} (more : sizeAdd aggregSize 1 < objSize)
    (live : c.node c.head = some x) : evictLoop objSize (fuel + 1) aggregSize c =
      evictLoop objSize fuel (sizeAdd aggregSize x.len)
        ⟨c.objs.erase c.head, c.next c.head, c.tail, sizeSub c.size x.len⟩ := by
  simp only [evictLoop, if_pos more, (lookup_eq_of_node live).2]
  rfl

theorem Chain.evicts_zero (chain : c.Chain q) : Evicts c 0 q (some c) :=
  ⟨fun _ => ⟨c, rfl, chain.evicted_zero⟩, fun lt => absurd lt (Nat.not_lt_zero _)⟩

theorem evictLoop_chain {objSize fuel aggregSize : Nat} (chain : c.Chain q) (enough : q.length < fuel)
    (small : objSize ≤ maxObjectSize) (freed : aggregSize ≤ 2 * maxObjectSize) :
    Evicts c (objSize - 1 - aggregSize) q (evictLoop objSize fuel aggregSize c) := by
  have large : 3 * maxObjectSize + 1 < sizeMod := by decide
  induction q generalizing fuel aggregSize c with
  | nil =>
      obtain ⟨fuel, rfl⟩ := Nat.exists_eq_succ_of_ne_zero (Nat.ne_of_gt enough)
      have sum : sizeAdd aggregSize 1 = aggregSize + 1 := sizeAdd_of_lt (by omega)
      by_cases more : aggregSize + 1 < objSize
      · refine ⟨fun le => ?_, fun _ => evictLoop_crash (sum ▸ more) ?_⟩
        · rw [load_nil] at le
          omega
        · rw [chain.reaches.head_eq_zero_iff.mpr rfl]
          exact chain.null
      · have nothing : objSize - 1 - aggregSize = 0 := by omega
        rw [evictLoop_done (by omega), nothing]
        exact chain.evicts_zero
  | cons x q ih =>
      obtain ⟨fuel, rfl⟩ := Nat.exists_eq_succ_of_ne_zero (Nat.ne_of_gt (Nat.zero_lt_of_lt enough))
      have sum : sizeAdd aggregSize 1 = aggregSize + 1 := sizeAdd_of_lt (by omega)
      by_cases more : aggregSize + 1 < objSize
      · have isHead : c.head = x.addr := chain.path.1
        have len_le := chain.len_le x (List.mem_cons_self ..)
        have freed' : sizeAdd aggregSize x.len = aggregSize + x.len := sizeAdd_of_lt (by omega)
        have need : objSize - 1 - (aggregSize + x.len) = objSize - 1 - aggregSize - x.len := by omega
        have live : c.node c.head = some x := isHead ▸ chain.live x (List.mem_cons_self ..)
        rw [evictLoop_more (sum ▸ more) live, freed', isHead]
        obtain ⟨first, isFirst⟩ : ∃ first : Cache, first =
            ⟨c.objs.erase x.addr, c.next x.addr, c.tail, sizeSub c.size x.len⟩ := ⟨_, rfl⟩
        have objs : first.objs = c.objs.erase x.addr := isFirst ▸ rfl
        obtain ⟨frees, crashes⟩ := ih (chain.tail_chain objs (isFirst ▸ rfl))
          (Nat.lt_of_succ_lt_succ enough) (show aggregSize + x.len ≤ 2 * maxObjectSize by omega)
        rw [← isFirst]
        rw [need] at frees crashes
        rw [Evicts, load_cons]
        refine ⟨fun le => ?_, fun lt => crashes (by omega)⟩
        obtain ⟨c', step, evicted⟩ := frees (by omega)
        exact ⟨c', step, evicted.cons chain (by omega) objs (isFirst ▸ rfl) (isFirst ▸ rfl)⟩
      · have nothing : objSize - 1 - aggregSize = 0 := by omega
        rw [evictLoop_done (by omega), nothing]
        exact chain.evicts_zero

/-- `evict` frees the shortest front of at least `objSize - 1` bytes, if there is one. -/
theorem Chain.evict {objSize : Nat} (chain : c.Chain q) (small : objSize ≤ maxObjectSize) :
    Evicts c (objSize - 1) q (c.evict objSize) :=
  evictLoop_chain chain (Nat.lt_succ_of_le chain.reaches.length_le) small (Nat.zero_le _)

/-- Whatever the links are, `evict` only frees objects. -/
theorem evictLoop_node {objSize fuel aggregSize : Nat} (step : evictLoop objSize fuel aggregSize c = some c')
    (a : Nat) : c'.node a = none ∨ c'.node a = c.node a := by
  induction fuel generalizing c aggregSize with
  | zero => cases step
  | succ fuel ih =>
      unfold evictLoop at step
      split at step
      · obtain ⟨o, -, rest⟩ := Option.bind_eq_some_iff.mp step
        rcases ih rest with gone | same
        · exact Or.inl gone
        · rw [same, node_erase rfl]
          split
          · exact Or.inl rfl
          · exact Or.inr rfl
      · obtain rfl := Option.some.inj step
        exact Or.inr rfl

/-! ## `cacheAdd` -/

section Insertion

variable {new : Node}

theorem Rewired.reaches (rewired : Rewired c c' a n) (reaches : c.Reaches q) (off : a ∉ q.map Node.addr) :
    c'.Reaches q := by
  refine reaches.congr rewired.head (fun b _ => ?_) (fun b member => ?_) (rewired.null reaches.null)
  · rw [rewired.node]
  · apply rewired.next_of_ne b
    rintro rfl
    exact off member

/-- A new last object behind the one that `cache_tail` points to. -/
theorem Reaches.enqueue (reaches : c.Reaches q) (isTail : ∀ x, q.getLast? = some x → c.tail = x.addr)
    (live : c.node new.addr = some new) (link : c.next new.addr = 0) (fresh : new.addr ∉ q.map Node.addr) :
    ∃ c', c.enqueue new.addr = some c' ∧ c'.Reaches (q ++ [new]) ∧ c'.tail = new.addr ∧
      c'.node = c.node ∧ c'.size = c.size := by
  have null := reaches.null
  rcases List.eq_nil_or_concat' q with rfl | ⟨front, y, rfl⟩
  · refine ⟨{ c with head := new.addr, tail := new.addr }, ?_, ⟨?_, ?_, null⟩, rfl, rfl, rfl⟩
    · exact if_pos (reaches.head_eq_zero_iff.mpr rfl)
    · exact ⟨rfl, link⟩
    · intro x member
      obtain rfl := List.mem_singleton.mp member
      exact live
  · have isTail : c.tail = y.addr := isTail y (by simp)
    have nonempty : c.head ≠ 0 := reaches.head_eq_zero_iff.not.mpr (by simp)
    obtain ⟨m, step⟩ := exists_setNext (reaches.live y (by simp)) new.addr
    have rewired := setNext_rewired step
    have other : new.addr ≠ y.addr := by
      intro same
      exact fresh (by simp [same])
    refine ⟨{ m with tail := new.addr }, ?_, ⟨?_, ?_, ?_⟩, rfl, rewired.node, rewired.size⟩
    · rw [Cache.enqueue, if_neg nonempty, isTail, step]
      rfl
    · have path := reaches.path
      have distinct := reaches.nodup
      rw [List.map_append] at path distinct
      rw [List.map_append, List.map_append]
      show Path m.next m.head _ 0
      rw [rewired.head]
      apply path.snoc rewired.next_self (rewired.next_of_ne _ other ▸ link)
      intro b member
      apply rewired.next_of_ne b
      rintro rfl
      exact List.disjoint_of_nodup_append distinct member (List.mem_singleton_self _)
    · intro x member
      show m.node x.addr = some x
      rw [rewired.node]
      rcases List.mem_append.mp member with old | last
      · exact reaches.live x old
      · obtain rfl := List.mem_singleton.mp last
        exact live
    · exact rewired.null null

theorem Chain.snoc (chain : c.Chain q) (reaches : c'.Reaches (q ++ [new])) (small : new.len ≤ maxObjectSize)
    (isTail : c'.tail = new.addr) : c'.Queue (q ++ [new]) := by
  refine ⟨reaches.chain fun x member => ?_, fun x last => ?_⟩
  · rcases List.mem_append.mp member with old | last
    · exact chain.len_le x old
    · obtain rfl := List.mem_singleton.mp last
      exact small
  · obtain rfl : new = x := by simpa using last
    exact isTail

theorem Queue.enqueue (queue : c.Queue q) (live : c.node new.addr = some new)
    (link : c.next new.addr = 0) (fresh : new.addr ∉ q.map Node.addr) (small : new.len ≤ maxObjectSize) :
    ∃ c', c.enqueue new.addr = some c' ∧ c'.Queue (q ++ [new]) ∧ c'.node = c.node ∧ c'.size = c.size := by
  obtain ⟨c', step, reaches, isTail, node, size⟩ := queue.reaches.enqueue queue.tail live link fresh
  exact ⟨c', step, queue.toChain.snoc reaches small isTail, node, size⟩

theorem enqueue_node (step : c.enqueue a = some c') : c'.node = c.node := by
  unfold Cache.enqueue at step
  split at step
  · obtain rfl := Option.some.inj step
    rfl
  · obtain ⟨m, assigned, rest⟩ := Option.bind_eq_some_iff.mp step
    obtain rfl := Option.some.inj rest
    exact (setNext_rewired assigned).node

/-- Where `cache_tail` is off the list, a new object does not get onto it. -/
theorem Reaches.enqueue_lost (reaches : c.Reaches q) (nonempty : q ≠ []) (off : c.tail ∉ q.map Node.addr)
    (step : c.enqueue a = some c') : c'.Reaches q ∧ c'.tail = a ∧ c'.node = c.node := by
  have node := enqueue_node step
  rw [Cache.enqueue, if_neg (reaches.head_eq_zero_iff.not.mpr nonempty)] at step
  obtain ⟨m, assigned, rest⟩ := Option.bind_eq_some_iff.mp step
  obtain rfl := Option.some.inj rest
  have reaches' := (setNext_rewired assigned).reaches reaches off
  exact ⟨⟨reaches'.path, reaches'.live, reaches'.null⟩, rfl, node⟩

/-- The bytes that `cacheAdd` has to free for an object of length `len`. -/
def toFree (c : Cache) (len : Nat) : Nat := if sizeAdd c.size len > maxCacheSize then len - 1 else 0

/-- The state in which `cacheAdd` has allocated and counted the new object. -/
def allocated (c : Cache) (new : Node) : Cache :=
  { c with
    objs := c.objs.insert new.addr ⟨new.key, new.value, new.len, 0⟩
    size := sizeAdd c.size new.len }

theorem allocated_self (c : Cache) (new : Node) :
    (c.allocated new).node new.addr = some new ∧ (c.allocated new).next new.addr = 0 := by
  unfold node next allocated
  rw [AList.lookup_insert]
  exact ⟨rfl, rfl⟩

theorem allocated_other (other : a ≠ new.addr) :
    (c.allocated new).node a = c.node a ∧ (c.allocated new).next a = c.next a := by
  unfold node next allocated
  rw [AList.lookup_insert_ne other]
  exact ⟨rfl, rfl⟩

theorem Reaches.allocated (reaches : c.Reaches q) (fresh : new.addr ∉ c.objs) (nonnull : new.addr ≠ 0) :
    (c.allocated new).Reaches q := by
  have apart : ∀ a ∈ q.map Node.addr, a ≠ new.addr := by
    rintro a member rfl
    exact fresh (reaches.addr_mem member)
  refine reaches.congr rfl (fun a member => ?_) (fun a member => ?_) ?_
  · exact (allocated_other (apart a member)).1
  · exact (allocated_other (apart a member)).2
  · rw [← node_eq_none_iff, (allocated_other nonnull.symm).1, node_eq_none_iff]
    exact reaches.null

theorem Chain.allocated (chain : c.Chain q) (fresh : new.addr ∉ c.objs) (nonnull : new.addr ≠ 0) :
    (c.allocated new).Chain q :=
  (chain.reaches.allocated fresh nonnull).chain chain.len_le

theorem insertNew_eq (c : Cache) (nonnull : new.addr ≠ 0) :
    c.insertNew new.key new.value new.len new.addr =
      ((c.allocated new).makeRoom new.len).bind fun c => c.enqueue new.addr := by
  rw [insertNew, if_neg nonnull]
  rfl

theorem Chain.makeRoom (chain : (c.allocated new).Chain q) (small : new.len ≤ maxObjectSize) :
    Evicts (c.allocated new) (c.toFree new.len) q ((c.allocated new).makeRoom new.len) := by
  have size : (c.allocated new).size = sizeAdd c.size new.len := rfl
  rw [Cache.makeRoom, size, toFree]
  split
  · exact chain.evict small
  · exact chain.evicts_zero

/-- What inserting `new` does to a cache whose chain is `q`. -/
structure Inserted (c c' : Cache) (q : List Node) (new : Node) : Prop where
  freed : ∀ a ∈ (dropped Node.len (c.toFree new.len) q).map Node.addr, a ∉ c'.objs
  node_new : c'.node new.addr = some new
  node : ∀ a, a ∉ (dropped Node.len (c.toFree new.len) q).map Node.addr → a ≠ new.addr →
    c'.node a = c.node a

theorem Evicted.inserted {m : Cache} (evicted : Evicted (c.allocated new) m (c.toFree new.len) q)
    (chain : c.Chain q) (fresh : new.addr ∉ c.objs) (same : c'.node = m.node) :
    Inserted c c' q new ∧ m.next new.addr = 0 ∧
      new.addr ∉ (kept Node.len (c.toFree new.len) q).map Node.addr := by
  have split := dropped_append_kept Node.len (c.toFree new.len) q
  have off : new.addr ∉ (dropped Node.len (c.toFree new.len) q).map Node.addr ∧
      new.addr ∉ (kept Node.len (c.toFree new.len) q).map Node.addr := by
    rw [← not_or, ← List.mem_append, ← List.map_append, split]
    exact fun member => fresh (chain.reaches.addr_mem member)
  refine ⟨⟨fun a member => ?_, ?_, fun a survives other => ?_⟩, ?_, off.2⟩
  · rw [← node_eq_none_iff, same, node_eq_none_iff]
    exact evicted.freed a member
  · rw [same, evicted.node _ off.1]
    exact (allocated_self c new).1
  · rw [same, evicted.node a survives]
    exact (allocated_other other).1
  · rw [evicted.next _ off.1]
    exact (allocated_self c new).2

/-- **A new object** goes to the end of the queue, after the front that makes room for it. -/
theorem Queue.insertNew (queue : c.Queue q) (new : Node) (nonnull : new.addr ≠ 0) (fresh : new.addr ∉ c.objs)
    (small : new.len ≤ maxObjectSize) (enough : c.toFree new.len ≤ load Node.len q) :
    ∃ c', c.insertNew new.key new.value new.len new.addr = some c' ∧
      c'.Queue (kept Node.len (c.toFree new.len) q ++ [new]) ∧ Inserted c c' q new ∧
      (c.size = load Node.len q → c.size + new.len < sizeMod →
        c'.size = load Node.len (kept Node.len (c.toFree new.len) q ++ [new])) := by
  have chain := queue.toChain.allocated fresh nonnull
  obtain ⟨m, made, evicted⟩ := (chain.makeRoom small).1 enough
  obtain ⟨inserted, link, off⟩ := evicted.inserted queue.toChain fresh rfl
  have room : m.Queue (kept Node.len (c.toFree new.len) q) := by
    refine ⟨evicted.chain, fun x last => ?_⟩
    rw [evicted.tail]
    apply queue.tail x
    rw [← dropped_append_kept Node.len (c.toFree new.len) q, List.getLast?_append, last]
    rfl
  obtain ⟨c', step, queue', node, size⟩ := room.enqueue inserted.node_new link off small
  refine ⟨c', ?_, queue', (evicted.inserted queue.toChain fresh node).1, fun sum fits => ?_⟩
  · rw [insertNew_eq c nonnull, made]
    exact step
  · have counted : (c.allocated new).size = c.size + new.len := sizeAdd_of_lt fits
    have parts := load_dropped_add_kept Node.len (c.toFree new.len) q
    rw [size, evicted.size (by omega) (by omega), load_append, load_cons, load_nil]
    omega

theorem toFree_eq {len : Nat} (fits : c.size + len < sizeMod) :
    c.toFree len = if c.size + len > maxCacheSize then len - 1 else 0 := by
  rw [toFree, sizeAdd_of_lt fits]

/-- **An add of a new key** where `cache_size` is the length of the queue: there is enough to
free, and the count stays exact. -/
theorem Queue.add_new (queue : c.Queue q) (size : c.size = load Node.len q) (new : Node)
    (missing : c.cacheFind new.key = some 0) (nonnull : new.addr ≠ 0) (fresh : new.addr ∉ c.objs)
    (small : new.len ≤ maxObjectSize) (fits : c.size + new.len < sizeMod) :
    ∃ c', c.cacheAdd new.key new.value new.len new.addr = some c' ∧
      c'.Queue (kept Node.len (c.toFree new.len) q ++ [new]) ∧ Inserted c c' q new ∧
      c'.size = load Node.len (kept Node.len (c.toFree new.len) q ++ [new]) := by
  have bound : maxObjectSize + maxObjectSize ≤ maxCacheSize := by decide
  have enough : c.toFree new.len ≤ load Node.len q := by
    rw [toFree_eq fits]
    split <;> omega
  obtain ⟨c', step, queue', inserted, size'⟩ := queue.insertNew new nonnull fresh small enough
  refine ⟨c', ?_, queue', inserted, size' size fits⟩
  rw [cacheAdd, missing]
  exact step

/-- An add of a key that is found changes nothing. -/
theorem cacheAdd_found {key : String} {value : List UInt8} {len webObj : Nat}
    (found : c.cacheFind key = some a) (nonnull : a ≠ 0) : c.cacheAdd key value len webObj = some c := by
  rw [cacheAdd, found]
  exact if_pos nonnull

/-- Whatever the links are, a new object that is there afterwards is the one that was inserted. -/
theorem node_of_insertNew {x : Node} (new : Node)
    (step : c.insertNew new.key new.value new.len new.addr = some c') (live : c'.node new.addr = some x) :
    x = new := by
  have nonnull : new.addr ≠ 0 := by
    intro zero
    rw [Cache.insertNew, if_pos zero] at step
    cases step
  rw [insertNew_eq c nonnull] at step
  obtain ⟨m, made, rest⟩ := Option.bind_eq_some_iff.mp step
  rw [enqueue_node rest] at live
  have isKept : m.node new.addr = none ∨ m.node new.addr = (c.allocated new).node new.addr := by
    unfold makeRoom at made
    split at made
    · exact evictLoop_node made _
    · obtain rfl := Option.some.inj made
      exact Or.inr rfl
  rw [live, (allocated_self c new).1] at isKept
  exact isKept.elim (fun impossible => by cases impossible) Option.some.inj

/-- An insertion that returns was given a place, and found enough to free. -/
theorem Chain.enough_of_insertNew (chain : c.Chain q) (fresh : new.addr ∉ c.objs)
    (small : new.len ≤ maxObjectSize) (step : c.insertNew new.key new.value new.len new.addr = some c') :
    new.addr ≠ 0 ∧ c.toFree new.len ≤ load Node.len q := by
  have nonnull : new.addr ≠ 0 := by
    intro zero
    rw [Cache.insertNew, if_pos zero] at step
    cases step
  refine ⟨nonnull, ?_⟩
  by_contra short
  rw [insertNew_eq c nonnull,
    ((chain.allocated fresh nonnull).makeRoom small).2 (Nat.lt_of_not_le short)] at step
  cases step

/-- Where `cache_tail` is off the chain, only an empty chain gets the new object. -/
theorem Chain.insertNew_lost (chain : c.Chain q) (off : c.tail ∉ q.map Node.addr)
    (fresh : new.addr ∉ c.objs) (small : new.len ≤ maxObjectSize)
    (step : c.insertNew new.key new.value new.len new.addr = some c') :
    Inserted c c' q new ∧
      (c'.Queue [new] ∧ kept Node.len (c.toFree new.len) q = [] ∨
        c'.Chain (kept Node.len (c.toFree new.len) q) ∧
          c'.tail ∉ (kept Node.len (c.toFree new.len) q).map Node.addr) := by
  obtain ⟨nonnull, enough⟩ := chain.enough_of_insertNew fresh small step
  obtain ⟨m, made, evicted⟩ := ((chain.allocated fresh nonnull).makeRoom small).1 enough
  rw [insertNew_eq c nonnull, made] at step
  obtain ⟨inserted, link, offNew⟩ := evicted.inserted chain fresh rfl
  by_cases nothing : kept Node.len (c.toFree new.len) q = []
  · have room : m.Queue [] := ⟨nothing ▸ evicted.chain, fun x last => by cases last⟩
    obtain ⟨c₁, step₁, queue, node, -⟩ := room.enqueue inserted.node_new link (by simp) small
    obtain rfl : c₁ = c' := Option.some.inj (step₁.symm.trans step)
    exact ⟨(evicted.inserted chain fresh node).1, Or.inl ⟨queue, nothing⟩⟩
  · have offTail : m.tail ∉ (kept Node.len (c.toFree new.len) q).map Node.addr := by
      rw [evicted.tail]
      exact fun member => off (((kept_sublist Node.len _ q).map Node.addr).subset member)
    obtain ⟨reaches', tail, node⟩ := evicted.chain.reaches.enqueue_lost nothing offTail step
    exact ⟨(evicted.inserted chain fresh node).1,
      Or.inr ⟨reaches'.chain evicted.chain.len_le, tail ▸ offNew⟩⟩

end Insertion

end Cache

end SystemsLabs.Proxy
