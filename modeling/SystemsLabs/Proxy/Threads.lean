/-
# SystemsLabs.Proxy.Threads -- what the clients' threads refer to between locked sections

Each client has a thread that runs `proxy`: it searches the cache under the read lock, sends
the entry it found without any lock and then moves it to the end of the queue under the write
lock, or fetches the response and adds it under the write lock.  The locked sections are
steps, taken in any order; the lock itself is taken to be correct here.

An address may be used again, so a thread's reference is the address and the number of
objects that `malloc` had placed there (`Phase.entry`).  A reference is good if that object
is still in the queue (`Safe`).  Nothing counts the references, so another thread's add may
free the object, and another thread's `replace_tail` may lose it; `Keeps` says when a step
does neither.
-/
import Mathlib.Logic.Function.Basic
import SystemsLabs.Proxy.LruQueue

namespace SystemsLabs.Proxy

open SystemsLabs.Theory.Lru SystemsLabs.Theory.Runs

set_option autoImplicit false

/-- Where a thread stands in `proxy`. -/
inductive Phase where
  /-- before `cacheFind` -/
  | searching
  /-- `cacheFind` returned `NULL` -/
  | fetching (uri : String)
  /-- `cacheFind` returned an object, whose value is sent next -/
  | sending (obj generation : Nat)
  /-- `replace_tail` of the object is next -/
  | touching (obj generation : Nat)
  | done
deriving DecidableEq, Repr

/-- The object that the thread refers to. -/
def Phase.entry : Phase → Option (Nat × Nat)
  | .sending obj generation => some (obj, generation)
  | .touching obj generation => some (obj, generation)
  | _ => none

/-- The cache and the threads; `placed` counts the objects that were placed at an address. -/
structure Threads where
  cache : Cache
  phase : Nat → Phase
  placed : Nat → Nat

/-- A step of thread `t`. -/
inductive Action where
  | find (t : Nat) (uri : String)
  | send (t : Nat)
  | touch (t : Nat)
  | add (t : Nat) (value : List UInt8) (len webObj : Nat)
  /-- the response is not cached -/
  | giveUp (t : Nat)
deriving DecidableEq, Repr

namespace Threads

def start : Threads := ⟨Cache.empty, fun _ => .searching, fun _ => 0⟩

def enter (s : Threads) (t : Nat) (p : Phase) : Threads := { s with phase := Function.update s.phase t p }

/-- `cacheFind`, under the read lock. -/
def find (s : Threads) (t : Nat) (uri : String) : Option Threads :=
  (s.cache.cacheFind uri).map fun obj =>
    s.enter t (if obj = 0 then .fetching uri else .sending obj (s.placed obj))

/-- `replace_tail`, under the write lock. -/
def touch (s : Threads) (t obj : Nat) : Option Threads :=
  (s.cache.replaceTail obj).map fun c => { s.enter t .done with cache := c }

/-- `cacheAdd`, under the write lock. -/
def add (s : Threads) (t : Nat) (uri : String) (value : List UInt8) (len webObj : Nat) : Option Threads :=
  (s.cache.cacheAdd uri value len webObj).map fun c =>
    { s.enter t .done with
      cache := c
      placed :=
        if s.cache.cacheFind uri = some 0 then Function.update s.placed webObj (s.placed webObj + 1)
        else s.placed }

def step (s : Threads) : Action → Option Threads
  | .find t uri =>
      match s.phase t with
      | .searching => s.find t uri
      | _ => none
  | .send t =>
      match s.phase t with
      | .sending obj generation => some (s.enter t (.touching obj generation))
      | _ => none
  | .touch t =>
      match s.phase t with
      | .touching obj _ => s.touch t obj
      | _ => none
  | .add t value len webObj =>
      match s.phase t with
      | .fetching uri => s.add t uri value len webObj
      | _ => none
  | .giveUp t =>
      match s.phase t with
      | .fetching _ => some (s.enter t .done)
      | _ => none

/-- `forward` adds small objects only, and `malloc` places an object at a free address. -/
def Allowed (s : Threads) : Action → Prop
  | .add _ _ len webObj => len ≤ maxObjectSize ∧ webObj ∉ s.cache.objs
  | _ => True

instance (s : Threads) : (act : Action) → Decidable (s.Allowed act)
  | .add _ _ len webObj => inferInstanceAs (Decidable (len ≤ maxObjectSize ∧ webObj ∉ s.cache.objs))
  | .find .. | .send _ | .touch _ | .giveUp _ => inferInstanceAs (Decidable True)

/-- The threads' references are to objects that are in the queue and were not freed. -/
def Safe (s : Threads) : Prop :=
  ∀ t obj generation, (s.phase t).entry = some (obj, generation) →
    (∃ q, s.cache.Chain q ∧ obj ∈ q.map Node.addr) ∧ s.placed obj = generation

/-- No thread but `t` refers to the object. -/
def OnlyHolder (s : Threads) (t obj : Nat) : Prop :=
  ∀ u, u ≠ t → ∀ generation, (s.phase u).entry ≠ some (obj, generation)

/-- An add finds no object that a thread refers to in the front that makes room for it.  A
touch of the last object, or of any once `cache_tail` is off the queue, is of one that no
other thread refers to. -/
def Keeps (s : Threads) : Action → Prop
  | .add t _ len _ => ∀ uri q, s.phase t = .fetching uri → s.cache.cacheFind uri = some 0 →
      s.cache.Chain q → ∀ x ∈ dropped Node.len (s.cache.toFree len) q, s.OnlyHolder t x.addr
  | .touch t => ∀ obj generation, s.phase t = .touching obj generation →
      (obj ≠ s.cache.tail ∧ ∃ q, s.cache.Chain q ∧ s.cache.tail ∈ q.map Node.addr) ∨ s.OnlyHolder t obj
  | _ => True

/-- What the threads refer to is on the chain `q`, which `cache_tail` ends or is off. -/
structure Inv (s : Threads) (q : List Node) : Prop where
  chain : s.cache.Chain q
  tail : s.cache.Queue q ∨ s.cache.tail ∉ q.map Node.addr
  held : ∀ t obj generation, (s.phase t).entry = some (obj, generation) →
    obj ∈ q.map Node.addr ∧ s.placed obj = generation

variable {s s' : Threads} {q : List Node} {t u obj generation len webObj : Nat} {uri : String}
  {value : List UInt8} {p : Phase} {act : Action}

theorem Inv.safe (inv : Inv s q) : s.Safe := by
  intro t obj generation holds
  obtain ⟨member, same⟩ := inv.held t obj generation holds
  exact ⟨⟨q, inv.chain, member⟩, same⟩

theorem entry_enter (holds : ((s.enter t p).phase u).entry = some (obj, generation)) :
    u = t ∧ p.entry = some (obj, generation) ∨ u ≠ t ∧ (s.phase u).entry = some (obj, generation) := by
  change (Function.update s.phase t p u).entry = _ at holds
  by_cases same : u = t
  · subst same
    rw [Function.update_self] at holds
    exact Or.inl ⟨rfl, holds⟩
  · rw [Function.update_of_ne same] at holds
    exact Or.inr ⟨same, holds⟩

/-- A thread may go on to a phase whose reference is good. -/
theorem Inv.enter (inv : Inv s q) (good : ∀ obj generation, p.entry = some (obj, generation) →
    obj ∈ q.map Node.addr ∧ s.placed obj = generation) : Inv (s.enter t p) q where
  chain := inv.chain
  tail := inv.tail
  held := by
    intro u obj generation holds
    rcases entry_enter holds with ⟨-, holds⟩ | ⟨-, holds⟩
    · exact good obj generation holds
    · exact inv.held u obj generation holds

theorem Inv.find (inv : Inv s q) (found : s.find t uri = some s') : Inv s' q := by
  obtain ⟨obj, search, rfl⟩ := Option.map_eq_some_iff.mp found
  apply inv.enter
  intro obj' generation holds
  split at holds
  · cases holds
  · next nonnull =>
    obtain ⟨rfl, rfl⟩ : obj = obj' ∧ s.placed obj = generation := by simpa [Phase.entry] using holds
    obtain ⟨x, member, rfl, -⟩ := inv.chain.reaches.of_cacheFind search nonnull
    exact ⟨List.mem_map_of_mem member, rfl⟩

/-- What the other threads refer to once `t` is done. -/
theorem Inv.held_done (inv : Inv s q)
    (holds : ((s.enter t .done).phase u).entry = some (obj, generation)) :
    u ≠ t ∧ (s.phase u).entry = some (obj, generation) ∧
      obj ∈ q.map Node.addr ∧ s.placed obj = generation := by
  rcases entry_enter holds with ⟨-, impossible⟩ | ⟨other, old⟩
  · cases impossible
  · exact ⟨other, old, inv.held u obj generation old⟩

/-- A touch leaves the other threads' objects on the chain. -/
theorem Inv.touch (inv : Inv s q) (holds : s.phase t = .touching obj generation)
    (keeps : (obj ≠ s.cache.tail ∧ ∃ q, s.cache.Chain q ∧ s.cache.tail ∈ q.map Node.addr) ∨
      s.OnlyHolder t obj) (touched : s.touch t obj = some s') : ∃ q', Inv s' q' := by
  obtain ⟨c, step, rfl⟩ := Option.map_eq_some_iff.mp touched
  have member := (inv.held t obj generation (by rw [holds]; rfl)).1
  obtain ⟨x, inQ, rfl⟩ := List.mem_map.mp member
  obtain ⟨pre, post, rfl⟩ := List.append_of_mem inQ
  have others : ∀ u obj' generation', ((s.enter t .done).phase u).entry = some (obj', generation') →
      (obj' ∈ (pre ++ post).map Node.addr ∨ obj' = x.addr) ∧ s.placed obj' = generation' := by
    intro u obj' generation' holds'
    obtain ⟨-, -, onChain, same⟩ := inv.held_done holds'
    refine ⟨?_, same⟩
    simp only [List.map_append, List.map_cons, List.mem_append, List.mem_cons] at onChain ⊢
    exact onChain.elim (fun m => Or.inl (Or.inl m)) fun m => m.elim Or.inr fun m => Or.inl (Or.inr m)
  by_cases inside : s.cache.Queue (pre ++ x :: post) ∧ post ≠ []
  · obtain ⟨c', step', queue', -, -⟩ := inside.1.replaceTail inside.2
    obtain rfl : c' = c := Option.some.inj (step'.symm.trans step)
    refine ⟨_, queue'.toChain, Or.inl queue', fun u obj' generation' holds' => ?_⟩
    obtain ⟨onChain, same⟩ := others u obj' generation' holds'
    refine ⟨?_, same⟩
    rw [List.map_append, List.mem_append]
    exact onChain.imp_right fun same => by simp [same]
  · -- `x` is lost, and the step is allowed as no other thread refers to it
    have offTail : s.cache.tail ∉ (pre ++ post).map Node.addr ∧ s.OnlyHolder t x.addr := by
      rcases inv.tail with queue | off
      · obtain rfl : post = [] := by
          by_contra nonempty
          exact inside ⟨queue, nonempty⟩
        have isTail : s.cache.tail = x.addr := queue.tail x (by simp)
        have distinct := inv.chain.reaches.nodup
        rw [List.map_append, List.map_cons] at distinct
        refine ⟨?_, keeps.resolve_left fun inner => inner.1 isTail.symm⟩
        rw [isTail, List.map_append]
        exact (List.nodup_cons.mp (List.nodup_middle.mp distinct)).1
      · refine ⟨fun inRest => off ?_, keeps.resolve_left ?_⟩
        · simp only [List.map_append, List.map_cons, List.mem_append, List.mem_cons] at inRest ⊢
          exact inRest.imp_right Or.inr
        · rintro ⟨-, q', chain', onChain⟩
          rw [← inv.chain.reaches.unique chain'.reaches] at onChain
          exact off onChain
    obtain ⟨chain', off', -⟩ := inv.chain.replaceTail_lost offTail.1 step
    refine ⟨_, chain', Or.inr off', fun u obj' generation' holds' => ?_⟩
    obtain ⟨onChain, same⟩ := others u obj' generation' holds'
    refine ⟨onChain.resolve_right ?_, same⟩
    rintro rfl
    obtain ⟨other, old, -⟩ := inv.held_done holds'
    exact offTail.2 u other generation' old

/-- A new object leaves those on the chain that some thread refers to. -/
theorem Inv.insertNew {c : Cache} (inv : Inv s q) (new : Node) (small : new.len ≤ maxObjectSize)
    (fresh : new.addr ∉ s.cache.objs)
    (keeps : ∀ x ∈ dropped Node.len (s.cache.toFree new.len) q, s.OnlyHolder t x.addr)
    (inserted : s.cache.insertNew new.key new.value new.len new.addr = some c) :
    ∃ q', Inv { s.enter t .done with
      cache := c
      placed := Function.update s.placed new.addr (s.placed new.addr + 1) } q' := by
  have survives : ∀ u obj generation, ((s.enter t .done).phase u).entry = some (obj, generation) →
      obj ∈ (kept Node.len (s.cache.toFree new.len) q).map Node.addr ∧
        Function.update s.placed new.addr (s.placed new.addr + 1) obj = generation := by
    intro u obj generation holds
    obtain ⟨other, old, onChain, same⟩ := inv.held_done holds
    constructor
    · rw [← dropped_append_kept Node.len (s.cache.toFree new.len) q, List.map_append,
        List.mem_append] at onChain
      apply onChain.resolve_left
      intro gone
      obtain ⟨x, inFront, rfl⟩ := List.mem_map.mp gone
      exact keeps x inFront u other generation old
    · rw [Function.update_of_ne, same]
      rintro rfl
      exact fresh (inv.chain.reaches.addr_mem onChain)
  rcases inv.tail with queue | off
  · obtain ⟨nonnull, enough⟩ := inv.chain.enough_of_insertNew fresh small inserted
    obtain ⟨c', step', queue', -, -⟩ := queue.insertNew new nonnull fresh small enough
    obtain rfl : c' = c := Option.some.inj (step'.symm.trans inserted)
    refine ⟨_, queue'.toChain, Or.inl queue', fun u obj generation holds => ?_⟩
    obtain ⟨onChain, same⟩ := survives u obj generation holds
    refine ⟨?_, same⟩
    rw [List.map_append]
    exact List.mem_append_left _ onChain
  · rcases (inv.chain.insertNew_lost off fresh small inserted).2 with ⟨queue', emptied⟩ | ⟨chain', off'⟩
    · refine ⟨_, queue'.toChain, Or.inl queue', fun u obj generation holds => ?_⟩
      have onChain := (survives u obj generation holds).1
      rw [emptied] at onChain
      cases onChain
    · exact ⟨_, chain', Or.inr off', survives⟩

/-- An add leaves the objects on the chain that some thread refers to. -/
theorem Inv.add (inv : Inv s q) (small : len ≤ maxObjectSize) (fresh : webObj ∉ s.cache.objs)
    (keeps : s.cache.cacheFind uri = some 0 →
      ∀ x ∈ dropped Node.len (s.cache.toFree len) q, s.OnlyHolder t x.addr)
    (added : s.add t uri value len webObj = some s') : ∃ q', Inv s' q' := by
  obtain ⟨c, step, rfl⟩ := Option.map_eq_some_iff.mp added
  obtain ⟨a, found, step⟩ := Option.bind_eq_some_iff.mp step
  by_cases missing : a = 0
  · subst missing
    rw [if_neg (fun impossible => impossible rfl)] at step
    have placed : (if s.cache.cacheFind uri = some 0 then
        Function.update s.placed webObj (s.placed webObj + 1) else s.placed) =
        Function.update s.placed webObj (s.placed webObj + 1) := if_pos found
    rw [placed]
    exact inv.insertNew ⟨webObj, uri, value, len⟩ small fresh (keeps found) step
  · -- the URI is in the cache already, which stays as it is
    rw [if_pos missing] at step
    obtain rfl := Option.some.inj step
    have placed : (if s.cache.cacheFind uri = some 0 then
        Function.update s.placed webObj (s.placed webObj + 1) else s.placed) = s.placed :=
      if_neg (by simp [found, missing])
    rw [placed]
    refine ⟨q, inv.chain, inv.tail, fun u obj generation holds => ?_⟩
    exact (inv.held_done holds).2.2

/-- **One step** of any thread. -/
theorem Inv.step (inv : Inv s q) (allowed : s.Allowed act) (keeps : s.Keeps act)
    (stepped : s.step act = some s') : ∃ q', Inv s' q' := by
  cases act with
  | find t uri =>
      simp only [Threads.step] at stepped
      split at stepped
      · exact ⟨q, inv.find stepped⟩
      · cases stepped
  | send t =>
      simp only [Threads.step] at stepped
      split at stepped
      · next obj generation holds =>
        obtain rfl := Option.some.inj stepped
        refine ⟨q, inv.enter fun obj' generation' same => inv.held t obj' generation' ?_⟩
        rw [holds]
        exact same
      · cases stepped
  | touch t =>
      simp only [Threads.step] at stepped
      split at stepped
      · next obj generation holds => exact inv.touch holds (keeps obj generation holds) stepped
      · cases stepped
  | add t value len webObj =>
      simp only [Threads.step] at stepped
      split at stepped
      · next uri holds =>
        exact inv.add allowed.1 allowed.2 (fun missing => keeps uri q holds missing inv.chain) stepped
      · cases stepped
  | giveUp t =>
      simp only [Threads.step] at stepped
      split at stepped
      · obtain rfl := Option.some.inj stepped
        exact ⟨q, inv.enter fun _ _ impossible => by cases impossible⟩
      · cases stepped

theorem start_inv : Inv start [] where
  chain := Cache.empty_serves.queue.toChain
  tail := Or.inl Cache.empty_serves.queue
  held := by
    intro t obj generation impossible
    cases impossible

/-- **The threads' references stay good** in every interleaving whose steps neither free nor
lose an object that another thread refers to. -/
theorem references_safe {acts : List Action} (run : Run (fun s act s' =>
    (s.Allowed act ∧ s.Keeps act) ∧ s.step act = some s') start acts s) : s.Safe := by
  have inv : ∃ q, Inv s q := by
    refine run.invariant (fun s => ∃ q, Inv s q) ⟨[], start_inv⟩ ?_
    rintro s act s' ⟨q, inv⟩ ⟨⟨allowed, keeps⟩, stepped⟩
    exact inv.step allowed keeps stepped
  obtain ⟨q, inv⟩ := inv
  exact inv.safe

/-- Touches, and adds that free something. -/
def changesQueue (s : Threads) : Action → Bool
  | .touch _ => true
  | .add _ _ len _ => s.cache.toFree len ≠ 0
  | _ => false

theorem keeps_of_unchanged (unchanged : s.changesQueue act = false) : s.Keeps act := by
  cases act with
  | touch t => cases unchanged
  | add t value len webObj =>
      intro uri q _ _ _ x member
      have emptied : s.cache.toFree len = 0 := by simpa [changesQueue] using unchanged
      rw [emptied, dropped_zero] at member
      cases member
  | find t uri => trivial
  | send t => trivial
  | giveUp t => trivial

/-- One thread adds an object, which another finds and sends. -/
def sharingActs : List Action := [.find 0 "a", .add 0 [1] 1 16, .find 1 "a", .send 1]

theorem references_safe_sharing : ∃ s, Run (fun s act s' =>
    (s.Allowed act ∧ s.Keeps act) ∧ s.step act = some s') start sharingActs s ∧ s.Safe := by
  have returns : (sharingActs.foldlM (fun (s : Threads) act =>
      if s.Allowed act ∧ s.changesQueue act = false then s.step act else none) start).isSome = true := by
    decide +kernel
  obtain ⟨s, computed⟩ := Option.isSome_iff_exists.mp returns
  have run := (Run.of_guarded computed).mono fun s act s' step =>
    And.intro (step.1.imp_right keeps_of_unchanged) step.2
  exact ⟨s, run, references_safe run⟩

/-- Ten objects of maximal length are added; a thread finds the first of them, and while it
sends the value another thread adds an eleventh object. -/
def freeingActs : List Action :=
  (List.range 10).flatMap (fun t => [.find t (String.ofList [Char.ofNat (48 + t)]),
    .add t (List.replicate maxObjectSize 0) maxObjectSize (16 * (t + 1))]) ++
  [.find 10 "0", .find 11 "x", .add 11 (List.replicate maxObjectSize 0) maxObjectSize 176]

theorem references_safe_counterexample : ¬ ∀ (acts : List Action) (s : Threads),
    Run (fun s act s' => s.Allowed act ∧ s.step act = some s') start acts s → s.Safe := by
  intro claim
  have freed : (freeingActs.foldlM (fun (s : Threads) act =>
      if s.Allowed act then s.step act else none) start).map (fun s =>
        ((s.phase 10).entry, decide (16 ∈ s.cache.objs))) = some (some (16, 1), false) := by
    decide +kernel
  obtain ⟨s, computed, facts⟩ := Option.map_eq_some_iff.mp freed
  obtain ⟨holds, gone⟩ : (s.phase 10).entry = some (16, 1) ∧ 16 ∉ s.cache.objs := by simpa using facts
  obtain ⟨⟨q, chain, onChain⟩, -⟩ := claim freeingActs s (Run.of_guarded computed) 10 16 1 holds
  exact gone (chain.reaches.addr_mem onChain)

end Threads

end SystemsLabs.Proxy
