/-
# SystemsLabs.Proxy.ReplaceTail -- an object moves to the end of the queue

`replace_tail` takes an object off the chain (`Reaches.unlink`) and links it behind the one
that `cache_tail` points to.  That puts it at the end of the queue if `cache_tail` is still
on the chain (`Queue.replaceTail`).  It is not if the object itself was the last one, or if
that happened before: then the object points to itself, or hangs off an object that is no
longer reached, and the chain has lost it (`Chain.replaceTail_lost`).
-/
import SystemsLabs.Proxy.Queue

namespace SystemsLabs.Proxy.Cache

open SystemsLabs.Theory.PointerPath

set_option autoImplicit false

variable {c c' : Cache} {q pre post front : List Node} {x p : Node} {a : Nat}

/-- The search of `replace_tail` stops at the object before `x`. -/
theorem findPrev_chain {fuel : Nat} (path : Path c.next a ((front ++ p :: x :: post).map Node.addr) 0)
    (live : ∀ y ∈ front ++ [p], c.node y.addr = some y)
    (distinct : ((front ++ p :: x :: post).map Node.addr).Nodup) (enough : front.length < fuel) :
    c.findPrev x.addr fuel a = some p.addr := by
  obtain ⟨fuel, rfl⟩ := Nat.exists_eq_succ_of_ne_zero (Nat.ne_of_gt (Nat.zero_lt_of_lt enough))
  induction front generalizing a fuel with
  | nil =>
      obtain ⟨rfl, next, -⟩ := path
      have found := (lookup_eq_of_node (live p (by simp))).2
      simp [findPrev, found, next]
  | cons y front ih =>
      obtain ⟨rfl, rest⟩ := path
      have found := (lookup_eq_of_node (live y (by simp))).2
      have onward : c.next y.addr ≠ x.addr := by
        intro same
        cases front with
        | nil => simp [← rest.1, same] at distinct
        | cons z front => simp [← rest.1, same] at distinct
      obtain ⟨fuel, rfl⟩ : ∃ m, fuel = m + 1 :=
        Nat.exists_eq_succ_of_ne_zero (Nat.ne_of_gt (Nat.zero_lt_of_lt (Nat.lt_of_succ_lt_succ enough)))
      have step := ih rest (fun z member => live z (List.mem_cons_of_mem _ member))
        (List.nodup_cons.mp distinct).2 fuel (Nat.lt_of_succ_lt_succ enough)
      unfold findPrev
      simpa [found, onward] using step

/-- Taking an object off the list. -/
theorem Reaches.unlink (reaches : c.Reaches (pre ++ x :: post)) :
    ∃ m : Cache, c.replaceTail x.addr = m.relink x.addr ∧ m.Reaches (pre ++ post) ∧ m.node = c.node ∧
      m.tail = c.tail ∧ m.size = c.size := by
  have path := reaches.path
  have distinct := reaches.nodup
  have found := (lookup_eq_of_node (reaches.live x (by simp))).2
  have live : ∀ y ∈ pre ++ post, c.node y.addr = some y := by
    intro y member
    apply reaches.live y
    rw [List.mem_append] at member ⊢
    exact member.imp_right (List.mem_cons_of_mem x)
  rcases List.eq_nil_or_concat' pre with rfl | ⟨front, p, rfl⟩
  · refine ⟨{ c with head := c.next x.addr }, ?_, ⟨path.2, live, reaches.null⟩, rfl, rfl, rfl⟩
    rw [Cache.replaceTail, if_pos path.1.symm, found]
    rfl
  · have notHead : x.addr ≠ c.head := by
      intro isHead
      have first := path.headD
      cases front with
      | nil => simp_all
      | cons z front => simp_all
    have search : c.findPrev x.addr (c.objs.entries.length + 1) c.head = some p.addr := by
      have enough := reaches.length_le
      simp only [List.append_assoc, List.singleton_append] at path distinct
      refine findPrev_chain path (fun y member => reaches.live y ?_) distinct ?_
      · exact List.mem_append_left _ member
      · simp only [List.length_append, List.length_cons] at enough
        omega
    obtain ⟨m, step⟩ := exists_setNext (reaches.live p (by simp)) (c.next x.addr)
    have rewired := setNext_rewired step
    refine ⟨m, ?_, ⟨?_, ?_, rewired.null reaches.null⟩, rewired.node, rewired.tail, rewired.size⟩
    · rw [Cache.replaceTail, if_neg notHead, search, found]
      exact congrArg (fun r : Option Cache => r.bind fun m => m.relink x.addr) step
    · rw [List.map_append, List.map_cons] at path distinct
      rw [List.map_append, rewired.head]
      refine path.unlink distinct (fun empty => by simp at empty) (fun _ => rfl) ?_ ?_
      · intro b last
        obtain rfl : p.addr = b := by simpa using last
        exact rewired.next_self
      · intro b _ notLast
        apply rewired.next_of_ne b
        rintro rfl
        exact notLast (by simp)
    · rw [rewired.node]
      exact live

/-- The object that is taken off is on no other place of the list. -/
theorem Reaches.off (reaches : c.Reaches (pre ++ x :: post)) : x.addr ∉ (pre ++ post).map Node.addr := by
  have distinct := reaches.nodup
  rw [List.map_append, List.map_cons] at distinct
  rw [List.map_append]
  exact (List.nodup_cons.mp (List.nodup_middle.mp distinct)).1

/-- Off the list, `x` goes behind its last object. -/
theorem Reaches.relink {y : Node} (reaches : c.Reaches q) (live : c.node x.addr = some x)
    (off : x.addr ∉ q.map Node.addr) (last : q.getLast? = some y) (isTail : c.tail = y.addr) :
    ∃ c', c.relink x.addr = some c' ∧ c'.Reaches (q ++ [x]) ∧ c'.tail = x.addr ∧
      c'.node = c.node ∧ c'.size = c.size := by
  obtain ⟨m, step⟩ := exists_setNext live 0
  have rewired := setNext_rewired step
  have cleared := rewired.reaches reaches off
  have isTail' : ∀ z, q.getLast? = some z → m.tail = z.addr := by
    intro z last'
    obtain rfl : y = z := Option.some.inj (last.symm.trans last')
    exact rewired.tail.trans isTail
  have nonempty : q ≠ [] := by
    rintro rfl
    cases last
  obtain ⟨c', behind, reaches', tail, node, size⟩ :=
    cleared.enqueue isTail' (rewired.node ▸ live) rewired.next_self off
  refine ⟨c', ?_, reaches', tail, node.trans rewired.node, size.trans rewired.size⟩
  rw [Cache.enqueue, if_neg (cleared.head_eq_zero_iff.not.mpr nonempty)] at behind
  rw [Cache.relink, step]
  exact behind

/-- Where `cache_tail` is off the list too, `x` is lost. -/
theorem Reaches.relink_lost (reaches : c.Reaches q) (off : a ∉ q.map Node.addr)
    (offTail : c.tail ∉ q.map Node.addr) (step : c.relink a = some c') :
    c'.Reaches q ∧ c'.tail = a ∧ c'.node = c.node ∧ c'.size = c.size := by
  obtain ⟨m, cleared, step⟩ := Option.bind_eq_some_iff.mp step
  obtain ⟨m', linked, step⟩ := Option.bind_eq_some_iff.mp step
  obtain rfl := Option.some.inj step
  have first := setNext_rewired cleared
  have second := setNext_rewired linked
  have reaches' := second.reaches (first.reaches reaches off) (first.tail ▸ offTail)
  exact ⟨⟨reaches'.path, reaches'.live, reaches'.null⟩, rfl, second.node.trans first.node,
    second.size.trans first.size⟩

theorem relink_tail (step : c.relink a = some c') : c'.tail = a := by
  obtain ⟨m, -, step⟩ := Option.bind_eq_some_iff.mp step
  obtain ⟨m', -, step⟩ := Option.bind_eq_some_iff.mp step
  obtain rfl := Option.some.inj step
  rfl

/-- `replace_tail` never leaves the cache as it was: where `x` is the tail already, it is lost. -/
theorem Reaches.replaceTail_ne (reaches : c.Reaches (pre ++ x :: post))
    (step : c.replaceTail x.addr = some c') : c' ≠ c := by
  rintro rfl
  obtain ⟨m, unlinked, reaches', -, tail, -⟩ := reaches.unlink
  rw [unlinked] at step
  have offTail : m.tail ∉ (pre ++ post).map Node.addr := by
    rw [tail, relink_tail step]
    exact reaches.off
  have lost := (reaches'.relink_lost reaches.off offTail step).1
  have same := congrArg List.length (lost.unique reaches)
  simp at same

/-- **`replace_tail` of an object before the last one** moves it to the end of the queue. -/
theorem Queue.replaceTail (queue : c.Queue (pre ++ x :: post)) (notLast : post ≠ []) :
    ∃ c', c.replaceTail x.addr = some c' ∧ c'.Queue (pre ++ post ++ [x]) ∧ c'.node = c.node ∧
      c'.size = c.size := by
  obtain ⟨m, step, reaches, node, tail, size⟩ := queue.reaches.unlink
  have live : m.node x.addr = some x := node ▸ queue.live x (by simp)
  obtain ⟨y, last⟩ : ∃ y, post.getLast? = some y := ⟨_, List.getLast?_eq_some_getLast notLast⟩
  have isTail : m.tail = y.addr := by
    refine tail.trans (queue.tail y ?_)
    simp [List.getLast?_append, List.getLast?_cons, last]
  obtain ⟨c', done, reaches', tail', node', size'⟩ := reaches.relink live queue.reaches.off
    (by simp [List.getLast?_append, last]) isTail
  have chain : m.Chain (pre ++ post) := by
    refine reaches.chain fun z member => queue.len_le z ?_
    rw [List.mem_append] at member ⊢
    exact member.imp_right (List.mem_cons_of_mem x)
  exact ⟨c', step.trans done, chain.snoc reaches' (queue.len_le x (by simp)) tail', node'.trans node,
    size'.trans size⟩

/-- `replace_tail` loses an object that is the last one, and any object once `cache_tail`
is off the list. -/
theorem Reaches.replaceTail_lost (reaches : c.Reaches (pre ++ x :: post))
    (offTail : c.tail ∉ (pre ++ post).map Node.addr) (step : c.replaceTail x.addr = some c') :
    c'.Reaches (pre ++ post) ∧ c'.tail = x.addr ∧ c'.node = c.node := by
  obtain ⟨m, asRelink, unlinked, node, tail, -⟩ := reaches.unlink
  rw [asRelink] at step
  obtain ⟨done, tail', node', -⟩ := unlinked.relink_lost reaches.off (tail ▸ offTail) step
  exact ⟨done, tail', node'.trans node⟩

theorem Chain.replaceTail_lost (chain : c.Chain (pre ++ x :: post))
    (offTail : c.tail ∉ (pre ++ post).map Node.addr) (step : c.replaceTail x.addr = some c') :
    c'.Chain (pre ++ post) ∧ c'.tail ∉ (pre ++ post).map Node.addr ∧ c'.node = c.node := by
  obtain ⟨reaches, tail, node⟩ := chain.reaches.replaceTail_lost offTail step
  refine ⟨reaches.chain fun y member => chain.len_le y ?_, tail ▸ chain.reaches.off, node⟩
  rw [List.mem_append] at member ⊢
  exact member.imp_right (List.mem_cons_of_mem x)

end SystemsLabs.Proxy.Cache
