/-
# SystemsLabs.Proxy.Capacity -- the cache holds at most `MAX_CACHE_SIZE` bytes, or one more

`cacheAdd` charges the new object first and then has `evict` free at least one byte less
than its length.  From a cache that is full to the last byte it can so end up with one byte
too many: where the front that is freed is exactly one byte short (`Overshoots`).  In all
other cases the bound is kept (`cache_bounded`).
-/
import SystemsLabs.Proxy.Adding
import SystemsLabs.Proxy.LruQueue

namespace SystemsLabs.Proxy.Cache

open SystemsLabs.Theory.PointerPath SystemsLabs.Theory.Lru SystemsLabs.Theory.Runs

set_option autoImplicit false

variable {c c' : Cache} {q q' : List Node} {new : Node}

/-- The cache is the queue `q`, counted in `cache_size` and within the bound. -/
structure Bounded (c : Cache) (q : List Node) : Prop where
  queue : c.Queue q
  size : c.size = load Node.len q
  le : c.size ≤ maxCacheSize

/-- The object is small and its address is that of no live object. -/
def Addable (c : Cache) (new : Node) : Prop :=
  new.len ≤ maxObjectSize ∧ new.addr ≠ 0 ∧ new.addr ∉ c.objs

instance (c : Cache) (new : Node) : Decidable (c.Addable new) :=
  inferInstanceAs (Decidable (_ ∧ _ ∧ _))

/-- The key is new, the cache is full, and some front of the queue is exactly one byte shorter
than the new object. -/
def Overshoots (c : Cache) (new : Node) : Prop :=
  c.cacheFind new.key = some 0 ∧ c.size = maxCacheSize ∧ 0 < new.len ∧
    ∃ q pre, c.Queue q ∧ pre <+: q ∧ load Node.len pre = new.len - 1

theorem Bounded.overshoots_iff (bounded : Bounded c q) : c.Overshoots new ↔
    c.cacheFind new.key = some 0 ∧ c.size = maxCacheSize ∧ 0 < new.len ∧
      ∃ pre, pre <+: q ∧ load Node.len pre = new.len - 1 := by
  constructor
  · rintro ⟨missing, full, positive, q', pre, queue, isPrefix, isEvict⟩
    obtain rfl := bounded.queue.reaches.unique queue.reaches
    exact ⟨missing, full, positive, pre, isPrefix, isEvict⟩
  · rintro ⟨missing, full, positive, pre, isPrefix, isEvict⟩
    exact ⟨missing, full, positive, q, pre, bounded.queue, isPrefix, isEvict⟩

/-- **An add of a new key** keeps the count exact, and the bound unless it overshoots. -/
theorem Bounded.add_new (bounded : Bounded c q) (addable : c.Addable new)
    (missing : c.cacheFind new.key = some 0) : ∃ c' q', c.addNode new = some c' ∧ c'.Queue q' ∧
      c'.size = load Node.len q' ∧ (c'.size ≤ maxCacheSize ↔ ¬ c.Overshoots new) := by
  obtain ⟨small, nonnull, fresh⟩ := addable
  have size := bounded.size
  have le := bounded.le
  have bound : maxObjectSize + maxObjectSize ≤ maxCacheSize := by decide
  have large : maxCacheSize + maxObjectSize < sizeMod := by decide
  have fits : c.size + new.len < sizeMod := by omega
  obtain ⟨c', step, queue', -, size'⟩ := bounded.queue.add_new size new missing nonnull fresh small fits
  refine ⟨c', _, step, queue', size', ?_⟩
  have parts := load_dropped_add_kept Node.len (c.toFree new.len) q
  rw [bounded.overshoots_iff, size', load_append, load_cons, load_nil]
  rw [toFree_eq fits] at parts ⊢
  by_cases exceeds : c.size + new.len > maxCacheSize
  · rw [if_pos exceeds] at parts ⊢
    have enough : new.len - 1 ≤ load Node.len q := by omega
    have freed := le_load_dropped enough
    rw [← load_dropped_eq_iff enough]
    simp only [missing, true_and]
    omega
  · rw [if_neg exceeds, kept_zero]
    apply iff_of_true (by omega)
    rintro ⟨-, full, positive, -⟩
    omega

/-- One `cacheAdd`. -/
theorem Bounded.addNode (bounded : Bounded c q) (addable : c.Addable new) (fitting : ¬ c.Overshoots new)
    (step : c.addNode new = some c') : ∃ q', Bounded c' q' := by
  by_cases missing : c.cacheFind new.key = some 0
  · obtain ⟨c₁, q', step', queue', size', le⟩ := bounded.add_new addable missing
    obtain rfl : c₁ = c' := Option.some.inj (step'.symm.trans step)
    exact ⟨q', queue', size', le.mpr fitting⟩
  · obtain ⟨a, found⟩ : ∃ a, c.cacheFind new.key = some a := ⟨_, bounded.queue.reaches.cacheFind _⟩
    have nonnull : a ≠ 0 := by
      rintro rfl
      exact missing found
    obtain rfl : c = c' := Option.some.inj ((cacheAdd_found found nonnull).symm.trans step)
    exact ⟨q, bounded⟩

/-- Any number of adds. -/
theorem Bounded.run {adds : List Node} (bounded : Bounded c q) (run : Run (fun c new c' =>
    (c.Addable new ∧ ¬ c.Overshoots new) ∧ c.addNode new = some c') c adds c') : ∃ q', Bounded c' q' := by
  refine run.invariant (fun c => ∃ q, Bounded c q) ⟨q, bounded⟩ ?_
  rintro c new c' ⟨q, bounded⟩ ⟨⟨addable, fitting⟩, step⟩
  exact bounded.addNode addable fitting step

/-- **The bound is kept** by an add of a new key exactly where it does not overshoot, and by
any number of adds that do not. -/
theorem cache_bounded (bounded : Bounded c q) :
    (∀ new, c.Addable new → c.cacheFind new.key = some 0 →
        ((∃ c' q', c.addNode new = some c' ∧ Bounded c' q') ↔ ¬ c.Overshoots new)) ∧
      ∀ adds c', Run (fun c new c' => (c.Addable new ∧ ¬ c.Overshoots new) ∧ c.addNode new = some c')
        c adds c' → ∃ q', Bounded c' q' := by
  refine ⟨fun new addable missing => ?_, fun adds c' run => bounded.run run⟩
  obtain ⟨c', q', step, queue', size', le⟩ := bounded.add_new addable missing
  constructor
  · rintro ⟨c₁, q₁, step₁, bounded₁⟩
    obtain rfl : c₁ = c' := Option.some.inj (step₁.symm.trans step)
    exact le.mp bounded₁.le
  · intro fitting
    exact ⟨c', q', step, queue', size', le.mpr fitting⟩

/-- Adds to a cache that is not full do not overshoot. -/
theorem run_of_notFull {adds : List Node} (computed : adds.foldlM (fun (c : Cache) new =>
      if c.Addable new ∧ c.size ≠ maxCacheSize then c.addNode new else none) c = some c') :
    Run (fun c new c' => (c.Addable new ∧ ¬ c.Overshoots new) ∧ c.addNode new = some c') c adds c' := by
  apply (Run.of_guarded computed).mono
  rintro c new c' ⟨⟨addable, notFull⟩, step⟩
  exact ⟨⟨addable, fun overshoots => notFull overshoots.2.1⟩, step⟩

theorem empty_bounded : Bounded empty [] :=
  ⟨empty_serves.queue, rfl, Nat.zero_le _⟩

def oneByte : Node := ⟨192, "byte", [0], 1⟩

theorem cache_bounded_filling :
    ((∃ c' q', empty.addNode oneByte = some c' ∧ Bounded c' q') ↔ ¬ empty.Overshoots oneByte) ∧
      ∃ c', Run (fun c new c' => (c.Addable new ∧ ¬ c.Overshoots new) ∧ c.addNode new = some c')
        empty fillingAdds c' ∧ ∃ q', Bounded c' q' := by
  have returns : (fillingAdds.foldlM (fun (c : Cache) new =>
      if c.Addable new ∧ c.size ≠ maxCacheSize then c.addNode new else none) empty).isSome = true := by
    decide +kernel
  obtain ⟨c', computed⟩ := Option.isSome_iff_exists.mp returns
  have run := run_of_notFull computed
  constructor
  · exact (cache_bounded empty_bounded).1 oneByte (by decide) (by decide)
  · exact ⟨c', run, (cache_bounded empty_bounded).2 fillingAdds c' run⟩

/-- One byte more is added to the full cache, and nothing is evicted for it. -/
theorem cache_bounded_counterexample : ¬ ∀ (c : Cache) (q : List Node) (new : Node), Bounded c q →
    c.Addable new → c.cacheFind new.key = some 0 → ∃ c' q', c.addNode new = some c' ∧ Bounded c' q' := by
  intro claim
  have full : (fillingAdds.foldlM (fun (c : Cache) new =>
      if c.Addable new ∧ c.size ≠ maxCacheSize then c.addNode new else none) empty).map (fun c =>
        (decide (c.Addable oneByte), c.cacheFind oneByte.key, (c.addNode oneByte).map size)) =
      some (true, some 0, some (maxCacheSize + 1)) := by
    decide +kernel
  obtain ⟨c, computed, facts⟩ := Option.map_eq_some_iff.mp full
  obtain ⟨addable, missing, after⟩ : c.Addable oneByte ∧ c.cacheFind oneByte.key = some 0 ∧
      (c.addNode oneByte).map size = some (maxCacheSize + 1) := by
    simpa using facts
  obtain ⟨q, bounded⟩ := empty_bounded.run (run_of_notFull computed)
  obtain ⟨c', q', step, bounded'⟩ := claim c q oneByte bounded addable missing
  rw [step] at after
  have exceeds : c'.size = maxCacheSize + 1 := Option.some.inj after
  have le := bounded'.le
  omega

end SystemsLabs.Proxy.Cache
