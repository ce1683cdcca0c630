/-
# SystemsLabs.Proxy.Unique -- at most one copy per URI

`cache_tail` need not be the last object of the queue, nor on it at all, and an object may
be longer than the cache.  What survives every operation is weaker than a well-formed queue
(`Distinct`): the list from `cache_head` is finite, its keys are distinct, and as long as it
has a last object, `cache_tail` points to a live object that is that one or off the list
(`Anchored`).  So no operation reads a freed object or goes round in a circle; one that does
not return reads `NULL` (`ReadsNull`).
-/
import SystemsLabs.Proxy.LruQueue

namespace SystemsLabs.Proxy.Cache

open SystemsLabs.Theory.PointerPath SystemsLabs.Theory.Runs

set_option autoImplicit false

variable {c c' m : Cache} {q pre post : List Node} {x new : Node} {a : Nat} {key : String}
  {value : List UInt8} {len webObj : Nat}

/-! ## `evict`, whatever the lengths are -/

/-- What `evict` has counted when it has freed `pre`. -/
def counted (aggregSize : Nat) (pre : List Node) : Nat :=
  pre.foldl (fun aggregSize x => sizeAdd aggregSize x.len) aggregSize

/-- The front `pre` was freed and `post` is left. -/
structure Freed (c c' : Cache) (pre post : List Node) : Prop where
  reaches : c'.Reaches post
  tail : c'.tail = c.tail
  node : ∀ a, a ∉ pre.map Node.addr → c'.node a = c.node a
  next : ∀ a, a ∉ pre.map Node.addr → c'.next a = c.next a

/-- The loop stops behind some front of the list, or finds each of them too short. -/
def Frees (c : Cache) (objSize aggregSize : Nat) (q : List Node) (result : Option Cache) : Prop :=
  (∃ c' pre post, result = some c' ∧ q = pre ++ post ∧ Freed c c' pre post) ∨
    result = none ∧ ∀ pre, pre <+: q → sizeAdd (counted aggregSize pre) 1 < objSize

theorem Reaches.frees_done {objSize aggregSize : Nat} (reaches : c.Reaches q) :
    Frees c objSize aggregSize q (some c) :=
  Or.inl ⟨c, [], q, rfl, rfl, reaches, rfl, fun _ _ => rfl, fun _ _ => rfl⟩

/-- The front of the second pass, behind the object that the first one freed. -/
theorem Freed.cons (objs : m.objs = c.objs.erase x.addr)
    (tail : m.tail = c.tail) (rest : Freed m c' pre post) : Freed c c' (x :: pre) post where
  reaches := rest.reaches
  tail := rest.tail.trans tail
  node := by
    intro a off
    obtain ⟨other, off⟩ := not_or.mp (List.mem_cons.not.mp off)
    rw [rest.node a off, node_erase objs, if_neg other]
  next := by
    intro a off
    obtain ⟨other, off⟩ := not_or.mp (List.mem_cons.not.mp off)
    rw [rest.next a off, next_erase objs other]

theorem Reaches.evictLoop {objSize fuel aggregSize : Nat} (reaches : c.Reaches q)
    (enough : q.length < fuel) : Frees c objSize aggregSize q (evictLoop objSize fuel aggregSize c) := by
  induction q generalizing fuel aggregSize c with
  | nil =>
      obtain ⟨fuel, rfl⟩ := Nat.exists_eq_succ_of_ne_zero (Nat.ne_of_gt enough)
      by_cases more : sizeAdd aggregSize 1 < objSize
      · have isNull : c.head ∉ c.objs := reaches.head_eq_zero_iff.mpr rfl ▸ reaches.null
        refine Or.inr ⟨evictLoop_crash more isNull, fun pre isPrefix => ?_⟩
        rw [List.prefix_nil.mp isPrefix]
        exact more
      · rw [evictLoop_done more]
        exact reaches.frees_done
  | cons x q ih =>
      obtain ⟨fuel, rfl⟩ := Nat.exists_eq_succ_of_ne_zero (Nat.ne_of_gt (Nat.zero_lt_of_lt enough))
      by_cases more : sizeAdd aggregSize 1 < objSize
      · have isHead : c.head = x.addr := reaches.path.1
        have live : c.node c.head = some x := isHead ▸ reaches.live x (List.mem_cons_self ..)
        rw [evictLoop_more more live, isHead]
        obtain ⟨first, isFirst⟩ : ∃ first : Cache, first =
            ⟨c.objs.erase x.addr, c.next x.addr, c.tail, sizeSub c.size x.len⟩ := ⟨_, rfl⟩
        have objs : first.objs = c.objs.erase x.addr := isFirst ▸ rfl
        rw [← isFirst]
        have later : Frees first objSize (sizeAdd aggregSize x.len) q
            (Cache.evictLoop objSize fuel (sizeAdd aggregSize x.len) first) :=
          ih (reaches.tail objs (isFirst ▸ rfl)) (Nat.lt_of_succ_lt_succ enough)
        rcases later with ⟨c', pre, post, step, rfl, freed⟩ | ⟨crash, short⟩
        · exact Or.inl ⟨c', x :: pre, post, step, rfl, freed.cons objs (isFirst ▸ rfl)⟩
        · refine Or.inr ⟨crash, fun pre isPrefix => ?_⟩
          cases pre with
          | nil => exact more
          | cons y pre =>
              obtain ⟨rfl, shorter⟩ := List.cons_prefix_cons.mp isPrefix
              exact short pre shorter
      · rw [evictLoop_done more]
        exact reaches.frees_done

theorem Reaches.makeRoom (reaches : c.Reaches q) (len : Nat) : Frees c len 0 q (c.makeRoom len) := by
  rw [Cache.makeRoom]
  split
  · exact reaches.evictLoop (Nat.lt_succ_of_le reaches.length_le)
  · exact reaches.frees_done

/-! ## The invariant -/

/-- `cache_tail` points to a live object that is the last one of `q` or off it. -/
def Anchored (c : Cache) (q : List Node) : Prop :=
  ∀ pre y, q = pre ++ [y] → c.tail ∈ c.objs ∧ c.tail ∉ pre.map Node.addr

/-- The list `q` from the head has no two entries with one key. -/
structure Distinct (c : Cache) (q : List Node) : Prop where
  reaches : c.Reaches q
  keys : (q.map Node.key).Nodup
  anchored : c.Anchored q

theorem Anchored.live (anchored : c.Anchored q) (nonempty : q ≠ []) : c.tail ∈ c.objs := by
  rcases List.eq_nil_or_concat' q with rfl | ⟨pre, y, rfl⟩
  · exact absurd rfl nonempty
  · exact (anchored pre y rfl).1

theorem Anchored.last_or_off (anchored : c.Anchored q) :
    (∀ y, q.getLast? = some y → c.tail = y.addr) ∨ c.tail ∉ q.map Node.addr := by
  rcases List.eq_nil_or_concat' q with rfl | ⟨pre, y, rfl⟩
  · exact Or.inr (by simp)
  · by_cases last : c.tail = y.addr
    · refine Or.inl fun z isLast => ?_
      obtain rfl : y = z := by simpa using isLast
      exact last
    · have off := (anchored pre y rfl).2
      exact Or.inr (by simp_all)

/-- An object that `cache_tail` points to and that is off a list may be put behind it. -/
theorem anchored_of_off (isTail : c.tail = a) (live : a ∈ c.objs) (off : a ∉ q.map Node.addr) :
    c.Anchored q ∧ ∀ x, c.Anchored (q ++ [x]) := by
  constructor
  · rintro pre y rfl
    rw [List.map_append, List.mem_append, not_or] at off
    exact ⟨isTail ▸ live, isTail ▸ off.1⟩
  · intro x pre y split
    obtain ⟨rfl, -⟩ := List.append_inj' split rfl
    exact ⟨isTail ▸ live, isTail ▸ off⟩

/-- The link that both operations end with: `x`, off the list, gets behind it or is lost. -/
theorem Distinct.linked (keys : (q.map Node.key).Nodup) (fresh : ∀ y ∈ q, y.key ≠ x.key)
    (off : x.addr ∉ q.map Node.addr) (live : c'.node x.addr = some x) (isTail : c'.tail = x.addr)
    (reaches : c'.Reaches q ∨ c'.Reaches (q ++ [x])) : ∃ q', Distinct c' q' := by
  obtain ⟨lost, behind⟩ := anchored_of_off isTail (mem_of_node live) off
  rcases reaches with reaches | reaches
  · exact ⟨q, reaches, keys, lost⟩
  · refine ⟨q ++ [x], reaches, ?_, behind x⟩
    rw [List.map_append]
    refine keys.append (List.nodup_singleton _) ?_
    rw [List.map_singleton, List.disjoint_singleton]
    intro member
    obtain ⟨y, inQ, same⟩ := List.mem_map.mp member
    exact fresh y inQ same

/-! ## `cacheAdd` -/

theorem Anchored.enqueue (anchored : c.Anchored q) (reaches : c.Reaches q)
    (live : c.node new.addr = some new) (link : c.next new.addr = 0) (fresh : new.addr ∉ q.map Node.addr) :
    ∃ c', c.enqueue new.addr = some c' ∧ (c'.Reaches q ∨ c'.Reaches (q ++ [new])) ∧
      c'.tail = new.addr ∧ c'.node = c.node := by
  rcases anchored.last_or_off with last | off
  · obtain ⟨c', step, reaches', tail, node, -⟩ := reaches.enqueue last live link fresh
    exact ⟨c', step, Or.inr reaches', tail, node⟩
  · by_cases nonempty : q = []
    · subst nonempty
      obtain ⟨c', step, reaches', tail, node, -⟩ :=
        reaches.enqueue (fun _ last => by cases last) live link fresh
      exact ⟨c', step, Or.inr reaches', tail, node⟩
    · obtain ⟨o, found⟩ := AList.lookup_isSome.mpr (anchored.live nonempty) |> Option.isSome_iff_exists.mp
      have step : c.enqueue new.addr = some { c with
          objs := c.objs.insert c.tail { o with next := new.addr }, tail := new.addr } := by
        rw [Cache.enqueue, if_neg (reaches.head_eq_zero_iff.not.mpr nonempty), setNext, found]
        rfl
      obtain ⟨reaches', tail, node⟩ := reaches.enqueue_lost nonempty off step
      exact ⟨_, step, Or.inl reaches', tail, node⟩

/-- A new key is inserted, or `evict` frees the whole list and needs more. -/
theorem Distinct.insertNew (distinct : Distinct c q) (new : Node) (missing : ∀ x ∈ q, x.key ≠ new.key)
    (nonnull : new.addr ≠ 0) (fresh : new.addr ∉ c.objs) :
    (∃ c' q', c.insertNew new.key new.value new.len new.addr = some c' ∧ Distinct c' q') ∨
      c.insertNew new.key new.value new.len new.addr = none ∧
        ∀ pre, pre <+: q → sizeAdd (counted 0 pre) 1 < new.len := by
  rw [insertNew_eq c nonnull]
  rcases (distinct.reaches.allocated fresh nonnull).makeRoom new.len with
    ⟨m, pre, post, made, rfl, freed⟩ | ⟨crash, short⟩
  · have off : new.addr ∉ (pre ++ post).map Node.addr := fun member => fresh (distinct.reaches.addr_mem member)
    rw [List.map_append, List.mem_append, not_or] at off
    have live : m.node new.addr = some new := (freed.node _ off.1).trans (allocated_self c new).1
    have link : m.next new.addr = 0 := (freed.next _ off.1).trans (allocated_self c new).2
    have anchored : m.Anchored post := by
      rintro front y rfl
      obtain ⟨tailLive, tailOff⟩ := distinct.anchored (pre ++ front) y (by simp)
      rw [List.map_append, List.mem_append, not_or] at tailOff
      rw [freed.tail]
      refine ⟨?_, tailOff.2⟩
      have other : c.tail ≠ new.addr := fun same => fresh (same ▸ tailLive)
      have kept : m.node c.tail = c.node c.tail := (freed.node _ tailOff.1).trans (allocated_other other).1
      exact (mem_congr kept).mpr tailLive
    obtain ⟨c', step, reaches', tail, node⟩ := anchored.enqueue freed.reaches live link off.2
    have keys := distinct.keys
    rw [List.map_append] at keys
    obtain ⟨q', distinct'⟩ := Distinct.linked keys.of_append_right
      (fun y member => missing y (List.mem_append_right _ member)) off.2 (node ▸ live) tail reaches'
    exact Or.inl ⟨c', q', by rw [made]; exact step, distinct'⟩
  · exact Or.inr ⟨by rw [crash]; rfl, short⟩

/-! ## `replace_tail` -/

theorem exists_relink (live : a ∈ c.objs) (tail : c.tail ∈ c.objs) : ∃ c', c.relink a = some c' := by
  have returns : ∀ (c : Cache) (b n : Nat), b ∈ c.objs → ∃ c', c.setNext b n = some c' := by
    intro c b n member
    obtain ⟨o, found⟩ := Option.isSome_iff_exists.mp (AList.lookup_isSome.mpr member)
    rw [setNext, found]
    exact ⟨_, rfl⟩
  obtain ⟨m, cleared⟩ := returns c a 0 live
  have rewired := setNext_rewired cleared
  have tail' : m.tail ∈ m.objs := by
    rw [mem_congr (congrFun rewired.node _), rewired.tail]
    exact tail
  obtain ⟨m', linked⟩ := returns m m.tail a tail'
  refine ⟨{ m' with tail := a }, ?_⟩
  rw [relink, cleared]
  show (m.setNext m.tail a).bind _ = _
  rw [linked]
  rfl

/-- `replace_tail` returns; it may lose the object. -/
theorem Distinct.replaceTail (distinct : Distinct c (pre ++ x :: post)) :
    ∃ c' q', c.replaceTail x.addr = some c' ∧ Distinct c' q' := by
  obtain ⟨m, asRelink, reaches, node, tail, -⟩ := distinct.reaches.unlink
  have off := distinct.reaches.off
  have live : m.node x.addr = some x := node ▸ distinct.reaches.live x (by simp)
  have keys := distinct.keys
  rw [List.map_append, List.map_cons, List.nodup_middle, List.nodup_cons, ← List.map_append] at keys
  have fresh : ∀ y ∈ pre ++ post, y.key ≠ x.key := fun y member same =>
    keys.1 (same ▸ List.mem_map_of_mem member)
  suffices linked : ∃ c', m.relink x.addr = some c' ∧ c'.tail = x.addr ∧ c'.node = m.node ∧
      (c'.Reaches (pre ++ post) ∨ c'.Reaches (pre ++ post ++ [x])) by
    obtain ⟨c', step, isTail, node', reaches'⟩ := linked
    obtain ⟨q', distinct'⟩ := Distinct.linked keys.2 fresh off (node' ▸ live) isTail reaches'
    exact ⟨c', q', asRelink.trans step, distinct'⟩
  by_cases offTail : c.tail ∈ (pre ++ post).map Node.addr
  · have nonempty : post ≠ [] := by
      rintro rfl
      rw [List.append_nil] at offTail
      exact (distinct.anchored pre x rfl).2 offTail
    obtain ⟨y, last⟩ : ∃ y, post.getLast? = some y := ⟨_, List.getLast?_eq_some_getLast nonempty⟩
    have isLast : c.tail = y.addr := by
      rcases distinct.anchored.last_or_off with isLast | gone
      · exact isLast y (by simp [List.getLast?_append, List.getLast?_cons, last])
      · exact absurd (by simp_all) gone
    obtain ⟨c', step, reaches', isTail, node', -⟩ := reaches.relink live off
      (by simp [List.getLast?_append, last]) (tail.trans isLast)
    exact ⟨c', step, isTail, node', Or.inr reaches'⟩
  · have tailLive : m.tail ∈ m.objs := by
      rw [tail, mem_congr (congrFun node _)]
      exact distinct.anchored.live (by simp)
    obtain ⟨c', step⟩ := exists_relink (mem_of_node live) tailLive
    obtain ⟨reaches', isTail, node', -⟩ := reaches.relink_lost off (tail ▸ offTail) step
    exact ⟨c', step, isTail, node', Or.inl reaches'⟩

/-! ## Runs -/

/-- The contract of `malloc`, which answers `NULL` or no live object; a hit is on an entry
that was found. -/
def Possible (c : Cache) : CacheOp → Prop
  | .add _ _ _ webObj => webObj ∉ c.objs
  | .hit key => c.cacheFind key ≠ some 0

instance (c : Cache) : (op : CacheOp) → Decidable (c.Possible op)
  | .add _ _ _ webObj => inferInstanceAs (Decidable (webObj ∉ c.objs))
  | .hit key => inferInstanceAs (Decidable (c.cacheFind key ≠ some 0))

/-- `malloc` answered `NULL`, or `evict` has freed the whole list `q` and needs more. -/
def ReadsNull (q : List Node) : CacheOp → Prop
  | .add _ _ len webObj => webObj = 0 ∨ ∀ pre, pre <+: q → sizeAdd (counted 0 pre) 1 < len
  | .hit _ => False

theorem Distinct.finds (distinct : Distinct c q) (key : String) :
    (c.cacheFind key = some 0 ∧ ∀ x ∈ q, x.key ≠ key) ∨
      ∃ x ∈ q, c.cacheFind key = some x.addr ∧ x.key = key ∧ ∀ y ∈ q, y.key = key → y = x := by
  by_cases missing : c.cacheFind key = some 0
  · exact Or.inl ⟨missing, distinct.reaches.cacheFind_eq_zero_iff.mp missing⟩
  · obtain ⟨a, found⟩ : ∃ a, c.cacheFind key = some a := ⟨_, distinct.reaches.cacheFind key⟩
    have nonnull : a ≠ 0 := by
      rintro rfl
      exact missing found
    obtain ⟨x, inQ, rfl, isKey⟩ := distinct.reaches.of_cacheFind found nonnull
    refine Or.inr ⟨x, inQ, found, isKey, fun y inQ' isKey' => ?_⟩
    exact List.inj_on_of_nodup_map distinct.keys inQ' inQ (isKey'.trans isKey.symm)

/-- A key that is there is not added again. -/
theorem Distinct.add_again (distinct : Distinct c q) (member : x ∈ q) (value : List UInt8)
    (len webObj : Nat) : c.cacheAdd x.key value len webObj = some c := by
  rcases distinct.finds x.key with ⟨-, absent⟩ | ⟨y, inQ, found, -⟩
  · exact absurd rfl (absent x member)
  · exact cacheAdd_found found (distinct.reaches.addr_ne_zero inQ)

/-- One operation keeps the keys distinct, or reads `NULL`. -/
theorem Distinct.step {op : CacheOp} (distinct : Distinct c q) (possible : c.Possible op) :
    (∃ c' q', c.step op = some c' ∧ Distinct c' q') ∨ c.step op = none ∧ ReadsNull q op := by
  cases op with
  | hit key =>
      rcases distinct.finds key with ⟨missing, -⟩ | ⟨x, inQ, found, -⟩
      · exact absurd missing possible
      · obtain ⟨pre, post, rfl⟩ := List.append_of_mem inQ
        obtain ⟨c', q', step, distinct'⟩ := distinct.replaceTail
        refine Or.inl ⟨c', q', ?_, distinct'⟩
        rw [Cache.step, found]
        exact step
  | add key value len webObj =>
      rcases distinct.finds key with ⟨missing, absent⟩ | ⟨x, inQ, -, rfl, -⟩
      · have inserts : c.step (.add key value len webObj) = c.insertNew key value len webObj := by
          rw [Cache.step, cacheAdd, missing]
          rfl
        rw [inserts]
        by_cases isNull : webObj = 0
        · exact Or.inr ⟨if_pos isNull, Or.inl isNull⟩
        · rcases distinct.insertNew ⟨webObj, key, value, len⟩ absent isNull possible with done | ⟨crash, short⟩
          · exact Or.inl done
          · exact Or.inr ⟨crash, Or.inr short⟩
      · exact Or.inl ⟨c, q, distinct.add_again inQ value len webObj, distinct⟩

/-- The list `q` holds at most one copy of a key, the searches end, and only what reads `NULL`
does not return. -/
structure OneCopy (c : Cache) (q : List Node) : Prop where
  reaches : c.Reaches q
  keys : (q.map Node.key).Nodup
  finds : ∀ key, (c.cacheFind key = some 0 ∧ ∀ x ∈ q, x.key ≠ key) ∨
    ∃ x ∈ q, c.cacheFind key = some x.addr ∧ x.key = key ∧ ∀ y ∈ q, y.key = key → y = x
  add_again : ∀ x ∈ q, ∀ value len webObj, c.cacheAdd x.key value len webObj = some c
  returns : ∀ op, c.Possible op → (∃ c', c.step op = some c') ∨ ReadsNull q op

theorem Distinct.oneCopy (distinct : Distinct c q) : OneCopy c q where
  reaches := distinct.reaches
  keys := distinct.keys
  finds := distinct.finds
  add_again := fun _ member => distinct.add_again member
  returns := by
    intro op possible
    rcases distinct.step possible with ⟨c', -, step, -⟩ | ⟨-, readsNull⟩
    · exact Or.inl ⟨c', step⟩
    · exact Or.inr readsNull

theorem empty_distinct : Distinct empty [] where
  reaches := empty_serves.queue.reaches
  keys := List.nodup_nil
  anchored := by
    intro pre y split
    simp at split

/-- **At most one copy of a key** is in the list, in every state that is reached. -/
theorem one_copy {ops : List CacheOp} (run : Run (fun c op c' => c.Possible op ∧ c.step op = some c')
    empty ops c) : ∃ q, OneCopy c q := by
  have distinct : ∃ q, Distinct c q := by
    refine run.invariant (fun c => ∃ q, Distinct c q) ⟨[], empty_distinct⟩ ?_
    rintro c op c' ⟨q, distinct⟩ ⟨possible, step⟩
    rcases distinct.step possible with ⟨c₁, q', step', distinct'⟩ | ⟨crash, -⟩
    · obtain rfl : c₁ = c' := Option.some.inj (step'.symm.trans step)
      exact ⟨q', distinct'⟩
    · rw [crash] at step
      cases step
  obtain ⟨q, distinct⟩ := distinct
  exact ⟨q, distinct.oneCopy⟩

/-- The last entry is hit and lost, and its key added again. -/
def repeatingOps : List CacheOp := [.add "a" [1] 1 16, .add "b" [2] 1 48, .hit "b", .add "b" [2] 1 80,
  .add "a" [1] 1 112, .hit "a"]

theorem one_copy_repeating : ∃ c, Run (fun c op c' => c.Possible op ∧ c.step op = some c')
    empty repeatingOps c ∧ ∃ q, OneCopy c q := by
  have returns : (repeatingOps.foldlM (fun (c : Cache) op =>
      if c.Possible op then c.step op else none) empty).isSome = true := by
    decide +kernel
  obtain ⟨c, computed⟩ := Option.isSome_iff_exists.mp returns
  exact ⟨c, Run.of_guarded computed, one_copy (Run.of_guarded computed)⟩

end SystemsLabs.Proxy.Cache
