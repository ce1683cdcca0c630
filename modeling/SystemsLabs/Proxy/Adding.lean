/-
# SystemsLabs.Proxy.Adding -- the effect of `cacheAdd` on a well-formed queue

A new key is added to a queue whose length is `cache_size`.  `Removes c len q pre post` says
which entries go: the shortest front `pre` of `len - 1` bytes or more, and only if the object
does not fit.  `Added` is the state afterwards: `evict` has returned, `cache_size` has dropped by
the bytes of `pre`, the entries `post` are in place with the new one behind them, and
`cacheFind` answers as before but for the new key and the keys of `pre` (`cacheAdd_effect`).

`evict` does not test for the end of the queue.  It does not get there: an object that does not
fit has at most `MAX_OBJECT_SIZE` bytes, and the queue then holds more than that.
-/
import SystemsLabs.Proxy.Queue

namespace SystemsLabs.Proxy.Cache

open SystemsLabs.Theory.Lru

set_option autoImplicit false

variable {c c' m : Cache} {q pre post : List Node} {x new : Node} {key : String} {len : Nat}

/-- The front `pre` of the queue makes room for `len` bytes. -/
structure Removes (c : Cache) (len : Nat) (q pre post : List Node) : Prop where
  split : q = pre ++ post
  needed : pre ≠ [] → c.size + len > maxCacheSize
  enough : c.size + len > maxCacheSize → len - 1 ≤ load Node.len pre
  shortest : ∀ front, front <+: q → len - 1 ≤ load Node.len front → pre <+: front

/-- The effect of `cacheAdd` on a new key. -/
structure Added (c c' : Cache) (pre post : List Node) (new : Node) : Prop where
  evicts : c.size + new.len > maxCacheSize → ∃ m, (c.allocated new).evict new.len = some m ∧
    m.Chain post ∧ m.size + load Node.len pre = c.size + new.len
  queue : c'.Queue (post ++ [new])
  tail : c'.tail = new.addr
  size : c'.size + load Node.len pre = c.size + new.len
  freed : ∀ x ∈ pre, x.addr ∉ c'.objs
  found : c'.cacheFind new.key = some new.addr
  others : ∀ key, key ≠ new.key → (∀ x ∈ pre, x.key ≠ key) → c'.cacheFind key = c.cacheFind key
  forgotten : ∀ x ∈ pre, c'.cacheFind x.key = some 0

/-- `evict` removes the front of the queue that the arithmetic asks for. -/
theorem removes_dropped (fits : c.size + len < sizeMod) (enough : c.toFree len ≤ load Node.len q) :
    Removes c len q (dropped Node.len (c.toFree len) q) (kept Node.len (c.toFree len) q) where
  split := (dropped_append_kept Node.len (c.toFree len) q).symm
  needed nonempty := by
    by_contra fitting
    have nothing : c.toFree len = 0 := by rw [toFree_eq fits, if_neg fitting]
    exact nonempty (by rw [nothing, dropped_zero])
  enough exceeds := by
    have need : c.toFree len = len - 1 := by rw [toFree_eq fits, if_pos exceeds]
    rw [need] at enough ⊢
    exact le_load_dropped enough
  shortest front isPrefix heavy := by
    apply dropped_shortest isPrefix
    rw [toFree_eq fits]
    split
    · exact heavy
    · exact Nat.zero_le _

/-- The search in a queue that lost a front and got a new last entry. -/
theorem Reaches.find_added (before : c.Reaches (pre ++ post)) (after : c'.Reaches (post ++ [new]))
    (other : key ≠ new.key) (off : ∀ x ∈ pre, x.key ≠ key) : c'.cacheFind key = c.cacheFind key := by
  have front : pre.find? (fun x => x.key = key) = none := by
    rw [List.find?_eq_none]
    intro x member
    simpa using off x member
  have back : [new].find? (fun x => x.key = key) = none := by
    simpa using other.symm
  rw [before.cacheFind, after.cacheFind, List.find?_append, List.find?_append, front, back,
    Option.none_or, Option.or_none]

theorem Reaches.find_last (reaches : c.Reaches (post ++ [new])) (missing : ∀ x ∈ post, x.key ≠ new.key) :
    c.cacheFind new.key = some new.addr := by
  have front : post.find? (fun x => x.key = new.key) = none := by
    rw [List.find?_eq_none]
    intro x member
    simpa using missing x member
  rw [reaches.cacheFind, List.find?_append, front]
  simp

/-- **`cacheAdd` of a new key.** -/
theorem cacheAdd_effect (queue : c.Queue q) (size : c.size = load Node.len q)
    (keys : (q.map Node.key).Nodup) (missing : ∀ x ∈ q, x.key ≠ new.key) (nonnull : new.addr ≠ 0)
    (fresh : new.addr ∉ c.objs) (small : new.len ≤ maxObjectSize) (fits : c.size + new.len < sizeMod) :
    ∃ pre post c', c.cacheAdd new.key new.value new.len new.addr = some c' ∧
      Removes c new.len q pre post ∧ Added c c' pre post new := by
  have bound : maxObjectSize + maxObjectSize ≤ maxCacheSize := by decide
  -- what does not fit is short, and the queue is long
  have enough : c.toFree new.len ≤ load Node.len q := by
    rw [toFree_eq fits]
    split <;> omega
  have absent := queue.reaches.cacheFind_eq_zero_iff.mpr missing
  obtain ⟨c', step, queue', inserted, size'⟩ :=
    queue.add_new size new absent nonnull fresh small fits
  have removes := removes_dropped fits enough
  have whole := load_dropped_add_kept Node.len (c.toFree new.len) q
  refine ⟨_, _, c', step, removes, ?_⟩
  obtain ⟨pre, isPre⟩ : ∃ pre, pre = dropped Node.len (c.toFree new.len) q := ⟨_, rfl⟩
  obtain ⟨post, isPost⟩ : ∃ post, post = kept Node.len (c.toFree new.len) q := ⟨_, rfl⟩
  have freed := inserted.freed
  rw [← isPre, ← isPost] at removes whole ⊢
  rw [← isPost] at queue' size'
  rw [← isPre] at freed
  obtain rfl := removes.split
  have left : ∀ x ∈ post, x.key ≠ new.key := fun x member => missing x (List.mem_append_right _ member)
  rw [List.map_append, List.nodup_append] at keys
  constructor
  · intro exceeds
    have need : c.toFree new.len = new.len - 1 := by rw [toFree_eq fits, if_pos exceeds]
    rw [need] at enough isPre isPost
    have chain := queue.toChain.allocated fresh nonnull
    obtain ⟨m, evicts, evicted⟩ := (chain.evict small).1 enough
    have charged : (c.allocated new).size = c.size + new.len := sizeAdd_of_lt fits
    have lighter := evicted.size (by rw [← isPre]; omega) (by omega)
    rw [← isPre] at lighter
    exact ⟨m, evicts, isPost ▸ evicted.chain, by omega⟩
  · exact queue'
  · exact queue'.tail new (by simp)
  · rw [size', load_append, load_cons, load_nil]
    omega
  · intro x member
    exact freed _ (List.mem_map_of_mem member)
  · exact queue'.reaches.find_last left
  · intro key other off
    exact queue.reaches.find_added queue'.reaches other off
  · intro x member
    rw [queue'.reaches.cacheFind_eq_zero_iff]
    intro y inNew same
    rcases List.mem_append.mp inNew with inPost | isNew
    · exact keys.2.2 x.key (List.mem_map_of_mem member) y.key (List.mem_map_of_mem inPost) same.symm
    · obtain rfl := List.mem_singleton.mp isNew
      exact missing x (List.mem_append_left _ member) same.symm

/-- The call `cacheAdd(new.key, new.value, new.len)`, whose object is placed at `new.addr`. -/
def addNode (c : Cache) (new : Node) : Option Cache := c.cacheAdd new.key new.value new.len new.addr

/-- Objects that all fit are put one behind the other. -/
theorem Queue.adds_fit {adds : List Node} (queue : c.Queue q) (size : c.size = load Node.len q)
    (keys : ((q ++ adds).map Node.key).Nodup) (addrs : (adds.map Node.addr).Nodup)
    (objects : ∀ new ∈ adds, new.addr ≠ 0 ∧ new.addr ∉ c.objs ∧ new.len ≤ maxObjectSize)
    (room : load Node.len (q ++ adds) ≤ maxCacheSize) :
    ∃ c', adds.foldlM addNode c = some c' ∧ c'.Queue (q ++ adds) ∧ c'.size = load Node.len (q ++ adds) ∧
      ∀ a, a ∉ c.objs → a ∉ adds.map Node.addr → a ∉ c'.objs := by
  induction adds generalizing c q with
  | nil => exact ⟨c, rfl, by simpa using queue, by simpa using size, fun a absent _ => absent⟩
  | cons new adds ih =>
      obtain ⟨⟨nonnull, fresh, small⟩, others⟩ := List.forall_mem_cons.mp objects
      have behind : q ++ new :: adds = q ++ [new] ++ adds := by simp
      rw [behind] at keys room ⊢
      have missing : ∀ x ∈ q, x.key ≠ new.key := by
        intro x member same
        rw [List.map_append, List.map_append, List.nodup_append, List.nodup_append] at keys
        exact keys.1.2.2 x.key (List.mem_map_of_mem member) new.key (by simp) same
      have total : load Node.len q + new.len ≤ maxCacheSize := by
        rw [load_append, load_append, load_cons, load_nil] at room
        omega
      have fits : c.size + new.len < sizeMod := by
        rw [size]
        exact Nat.lt_of_le_of_lt total (by decide)
      obtain ⟨c₁, step, queue₁, inserted, size₁⟩ := queue.add_new size new
        (queue.reaches.cacheFind_eq_zero_iff.mpr missing) nonnull fresh small fits
      have none : c.toFree new.len = 0 := by
        rw [toFree_eq fits, if_neg (by omega)]
      rw [none, kept_zero] at queue₁ size₁
      have absent : ∀ a, a ∉ c.objs → a ≠ new.addr → a ∉ c₁.objs := by
        intro a off other
        have same := inserted.node a (by rw [none]; simp) other
        rw [← node_eq_none_iff, same, node_eq_none_iff]
        exact off
      rw [List.map_cons, List.nodup_cons] at addrs
      obtain ⟨c', run, queue', size', off'⟩ := ih queue₁ size₁ keys addrs.2 (fun x member => by
        obtain ⟨nonnull, fresh, small⟩ := others x member
        exact ⟨nonnull, absent _ fresh fun same => addrs.1 (same ▸ List.mem_map_of_mem member), small⟩) room
      refine ⟨c', ?_, queue', size', fun a off other => ?_⟩
      · rw [List.foldlM_cons, addNode, step]
        exact run
      · rw [List.map_cons, List.mem_cons, not_or] at other
        exact off' a (absent a off other.1) other.2

/-- Ten objects of maximal length and one that fills the cache to the last byte. -/
def fillingAdds : List Node :=
  (["0", "1", "2", "3", "4", "5", "6", "7", "8", "9"].zipIdx.map fun object =>
    ⟨16 * (object.2 + 1), object.1, List.replicate maxObjectSize 0, maxObjectSize⟩) ++
  [⟨176, "rest", List.replicate 24576 0, 24576⟩]

/-- An object for which the full cache gives up its first. -/
theorem cacheAdd_effect_full : ∃ c, fillingAdds.foldlM addNode empty = some c ∧ c.size = maxCacheSize ∧
    ∃ pre post c', c.cacheAdd "b" [2, 3] 2 192 = some c' ∧ Removes c 2 fillingAdds pre post ∧
      Added c c' pre post ⟨192, "b", [2, 3], 2⟩ ∧ pre ≠ [] := by
  have start : empty.Queue [] := ⟨⟨rfl, by simp, by decide, by simp⟩, by simp⟩
  have length : load Node.len fillingAdds = maxCacheSize := by decide +kernel
  have keys : (fillingAdds.map Node.key).Nodup := by decide +kernel
  obtain ⟨c, run, queue, size, off⟩ := start.adds_fit rfl (show (([] ++ fillingAdds).map Node.key).Nodup from keys)
    (by decide +kernel) (by decide +kernel) (show load Node.len ([] ++ fillingAdds) ≤ maxCacheSize from length.le)
  rw [List.nil_append] at queue size
  have full : c.size = maxCacheSize := size.trans length
  obtain ⟨pre, post, c', step, removes, added⟩ := cacheAdd_effect queue size keys
    (show ∀ x ∈ fillingAdds, x.key ≠ (⟨192, "b", [2, 3], 2⟩ : Node).key by decide +kernel) (by decide)
    (off 192 (by decide) (by decide +kernel)) (by decide) (by rw [full]; decide)
  refine ⟨c, run, full, pre, post, c', step, removes, added, ?_⟩
  rintro rfl
  have := removes.enough (by rw [full]; decide)
  exact absurd this (by decide)

end SystemsLabs.Proxy.Cache
