/-
# SystemsLabs.Proxy.RwLock -- the lock around the cache, and its initialisation

A thread starts in `thread()`, which has `pthread_once` initialise the lock, and goes through
`proxy` with its locked sections.  The control variable of `pthread_once` is a local variable
of `thread()`, so every start initialises the lock anew, and frees it under those who hold it.
The lock excludes a writer from everybody else as long as no thread starts while it is held
(`rwlock_exclusive`).
-/
import Mathlib.Logic.Function.Basic
import SystemsLabs.Theory.RwLock
import SystemsLabs.Theory.Runs

namespace SystemsLabs.Proxy

open SystemsLabs.Theory.RwLock SystemsLabs.Theory.Runs

set_option autoImplicit false

/-- Where a thread stands, as far as the lock is concerned. -/
inductive Stage where
  /-- not yet started -/
  | unborn
  /-- reads and parses the request -/
  | parsing
  /-- in `cacheFind`, under the read lock -/
  | finding
  /-- found the entry and sends it -/
  | sending
  /-- found none and forwards the response -/
  | fetching
  /-- in `replace_tail`, under the write lock -/
  | touching
  /-- in `cacheAdd`, under the write lock -/
  | adding
  | finished
deriving DecidableEq, Repr

namespace Stage

def reads : Stage → Bool
  | .finding => true
  | _ => false

def writes : Stage → Bool
  | .touching | .adding => true
  | _ => false

/-- Not in a locked section. -/
def Outside (stage : Stage) : Prop := stage.reads = false ∧ stage.writes = false

end Stage

/-- The lock and the threads; `inits` counts the initialisations of the lock, and `initHeld`
records one of a lock that was held. -/
structure Process where
  lock : Lock
  stage : Nat → Stage
  inits : Nat
  initHeld : Bool

/-- A control variable of `pthread_once`. -/
inductive Once where
  | init
  | done
deriving DecidableEq, Repr

/-- `pthread_once` calls the routine unless the control variable says that it was called. -/
def pthreadOnce (once : Once) (routine : Process → Process) (s : Process) : Once × Process :=
  match once with
  | .init => (.done, routine s)
  | .done => (.done, s)

/-- A step of thread `t`. -/
inductive LockStep where
  | start (t : Nat)
  /-- the request does not parse -/
  | reject (t : Nat)
  | rdlock (t : Nat)
  | rdunlock (t : Nat) (found : Bool)
  | wrlock (t : Nat)
  | wrunlock (t : Nat)
  /-- the response is not cached -/
  | giveUp (t : Nat)
deriving DecidableEq, Repr

namespace Process

/-- The lock is a global variable and starts as the free one. -/
def boot : Process := ⟨.free, fun _ => .unborn, 0, false⟩

def initProxyThread (s : Process) : Process :=
  { s with lock := .free, inits := s.inits + 1, initHeld := s.initHeld || s.lock ≠ .free }

def enter (s : Process) (t : Nat) (stage : Stage) : Process :=
  { s with stage := Function.update s.stage t stage }

/-- `thread()`, up to its call of `proxy`. -/
def thread (s : Process) (t : Nat) : Process :=
  let once := Once.init
  let (_, s) := pthreadOnce once initProxyThread s
  s.enter t .parsing

/-- The thread has the lock in the state `lock` when it goes on to `stage`. -/
def lockThen (s : Process) (t : Nat) (lock : Option Lock) (stage : Stage) : Option Process :=
  lock.map fun lock => { s.enter t stage with lock := lock }

def step (s : Process) : LockStep → Option Process
  | .start t => if s.stage t = .unborn then some (s.thread t) else none
  | .reject t => if s.stage t = .parsing then some (s.enter t .finished) else none
  | .rdlock t => if s.stage t = .parsing then s.lockThen t s.lock.rdlock .finding else none
  | .rdunlock t found =>
      if s.stage t = .finding then s.lockThen t s.lock.unlock (if found then .sending else .fetching)
      else none
  | .wrlock t =>
      match s.stage t with
      | .sending => s.lockThen t s.lock.wrlock .touching
      | .fetching => s.lockThen t s.lock.wrlock .adding
      | _ => none
  | .wrunlock t =>
      if (s.stage t).writes then s.lockThen t s.lock.unlock .finished else none
  | .giveUp t => if s.stage t = .fetching then some (s.enter t .finished) else none

/-- Whoever writes is alone inside the locked sections. -/
def Exclusive (s : Process) : Prop :=
  ∀ t u, t ≠ u → (s.stage t).writes = true → (s.stage u).writes = false ∧ (s.stage u).reads = false

/-- No thread starts while the lock is held. -/
def Keeps (s : Process) : LockStep → Prop
  | .start _ => s.lock = .free
  | _ => True

/-- The lock is held by the threads that are inside its sections. -/
def Inv (s : Process) : Prop :=
  s.initHeld = false ∧ ∃ R W : Finset Nat, Holders s.lock R W ∧
    ∀ t, ((s.stage t).reads = true ↔ t ∈ R) ∧ ((s.stage t).writes = true ↔ t ∈ W)

variable {s s' : Process} {R W : Finset Nat} {t : Nat} {lock : Lock} {stage : Stage} {act : LockStep}
  {acts : List LockStep}

/-- A writer excludes all others. -/
theorem Inv.exclusive (inv : s.Inv) : s.Exclusive := by
  obtain ⟨-, R, W, holders, tracks⟩ := inv
  intro t u other writes
  obtain ⟨isEmpty, only⟩ := holders.alone ((tracks t).2.mp writes)
  constructor
  · rw [Bool.eq_false_iff]
    intro also
    have member := (tracks u).2.mp also
    rw [only, Finset.mem_singleton] at member
    exact other member.symm
  · rw [Bool.eq_false_iff]
    intro reads
    have member := (tracks u).1.mp reads
    rw [isEmpty] at member
    exact Finset.notMem_empty u member

/-- What a thread that has started can do: it stays outside the locked sections, enters one
with the lock taken, or leaves one with the lock released. -/
inductive Move : Stage → Stage → Lock → Lock → Prop
  | outside {a b : Stage} {l : Lock} : a.Outside → b.Outside → Move a b l l
  | reading {a b : Stage} {l l' : Lock} :
      a.Outside → b.reads = true → b.writes = false → l.rdlock = some l' → Move a b l l'
  | writing {a b : Stage} {l l' : Lock} :
      a.Outside → b.reads = false → b.writes = true → l.wrlock = some l' → Move a b l l'
  | leaving {a b : Stage} {l l' : Lock} :
      a.reads = !a.writes → b.Outside → l.unlock = some l' → Move a b l l'

/-- A thread starts. -/
def isStart : LockStep → Bool
  | .start _ => true
  | _ => false

/-- Every step is a start or a move. -/
theorem step_cases (stepped : s.step act = some s') :
    (∃ t, act = .start t ∧ s' = s.thread t) ∨
      ∃ t stage lock, isStart act = false ∧ s.stage t ≠ .unborn ∧
        s' = { s.enter t stage with lock := lock } ∧ Move (s.stage t) stage s.lock lock := by
  cases act with
  | start t =>
      obtain ⟨-, same⟩ := Option.ite_none_right_eq_some.mp stepped
      exact Or.inl ⟨t, rfl, (Option.some.inj same).symm⟩
  | reject t =>
      obtain ⟨here, same⟩ := Option.ite_none_right_eq_some.mp stepped
      refine Or.inr ⟨t, .finished, s.lock, rfl, ?_, (Option.some.inj same).symm, ?_⟩
      · rw [here]
        decide
      · rw [here]
        exact Move.outside ⟨rfl, rfl⟩ ⟨rfl, rfl⟩
  | rdlock t =>
      obtain ⟨here, locked⟩ := Option.ite_none_right_eq_some.mp stepped
      obtain ⟨lock, taken, rfl⟩ := Option.map_eq_some_iff.mp locked
      refine Or.inr ⟨t, .finding, lock, rfl, ?_, rfl, ?_⟩
      · rw [here]
        decide
      · rw [here]
        exact Move.reading ⟨rfl, rfl⟩ rfl rfl taken
  | rdunlock t found =>
      obtain ⟨here, unlocked⟩ := Option.ite_none_right_eq_some.mp stepped
      obtain ⟨lock, released, rfl⟩ := Option.map_eq_some_iff.mp unlocked
      refine Or.inr ⟨t, if found then .sending else .fetching, lock, rfl, ?_, rfl, ?_⟩
      · rw [here]
        decide
      · rw [here]
        exact Move.leaving rfl (by cases found <;> exact ⟨rfl, rfl⟩) released
  | wrlock t =>
      simp only [Process.step] at stepped
      split at stepped
      · next here =>
        obtain ⟨lock, taken, rfl⟩ := Option.map_eq_some_iff.mp stepped
        refine Or.inr ⟨t, .touching, lock, rfl, ?_, rfl, ?_⟩
        · rw [here]
          decide
        · rw [here]
          exact Move.writing ⟨rfl, rfl⟩ rfl rfl taken
      · next here =>
        obtain ⟨lock, taken, rfl⟩ := Option.map_eq_some_iff.mp stepped
        refine Or.inr ⟨t, .adding, lock, rfl, ?_, rfl, ?_⟩
        · rw [here]
          decide
        · rw [here]
          exact Move.writing ⟨rfl, rfl⟩ rfl rfl taken
      · cases stepped
  | wrunlock t =>
      obtain ⟨writes, unlocked⟩ := Option.ite_none_right_eq_some.mp stepped
      obtain ⟨lock, released, rfl⟩ := Option.map_eq_some_iff.mp unlocked
      refine Or.inr ⟨t, .finished, lock, rfl, ?_, rfl, Move.leaving ?_ ⟨rfl, rfl⟩ released⟩
      · intro here
        rw [here] at writes
        cases writes
      · cases here : s.stage t <;> rw [here] at writes <;> first | rfl | cases writes
  | giveUp t =>
      obtain ⟨here, same⟩ := Option.ite_none_right_eq_some.mp stepped
      refine Or.inr ⟨t, .finished, s.lock, rfl, ?_, (Option.some.inj same).symm, ?_⟩
      · rw [here]
        decide
      · rw [here]
        exact Move.outside ⟨rfl, rfl⟩ ⟨rfl, rfl⟩

/-- A thread goes on to `stage` with the lock in the state `lock`. -/
theorem inv_enter (notHeld : s.initHeld = false)
    (tracks : ∀ t, ((s.stage t).reads = true ↔ t ∈ R) ∧ ((s.stage t).writes = true ↔ t ∈ W))
    (holders : Holders lock (if stage.reads then insert t R else R.erase t)
      (if stage.writes then insert t W else W.erase t)) :
    Inv { s.enter t stage with lock := lock } := by
  refine ⟨notHeld, _, _, holders, fun u => ?_⟩
  change ((Function.update s.stage t stage u).reads = true ↔ _) ∧
    ((Function.update s.stage t stage u).writes = true ↔ _)
  by_cases same : u = t
  · subst same
    rw [Function.update_self]
    constructor <;> split <;> simp [*]
  · rw [Function.update_of_ne same, (tracks u).1, (tracks u).2]
    constructor <;> split <;> simp [same]

/-- A move keeps the account of who holds the lock. -/
theorem Inv.move (inv : s.Inv) (move : Move (s.stage t) stage s.lock lock) :
    Inv { s.enter t stage with lock := lock } := by
  obtain ⟨notHeld, R, W, holders, tracks⟩ := inv
  apply inv_enter notHeld tracks
  have offR : (s.stage t).reads = false → t ∉ R := by
    intro reads
    rw [← (tracks t).1, reads]
    exact Bool.false_ne_true
  have offW : (s.stage t).writes = false → t ∉ W := by
    intro writes
    rw [← (tracks t).2, writes]
    exact Bool.false_ne_true
  cases move with
  | outside before after =>
      rw [after.1, after.2, Finset.erase_eq_of_notMem (offR before.1), Finset.erase_eq_of_notMem (offW before.2)]
      exact holders
  | reading before reads writes taken =>
      rw [reads, writes, Finset.erase_eq_of_notMem (offW before.2)]
      exact holders.rdlock (offR before.1) taken
  | writing before reads writes taken =>
      rw [reads, writes, Finset.erase_eq_of_notMem (offR before.1)]
      exact holders.wrlock (offW before.2) taken
  | leaving before after released =>
      rw [after.1, after.2]
      cases writes : (s.stage t).writes with
      | false =>
          rw [Finset.erase_eq_of_notMem (offW writes)]
          rw [writes] at before
          exact holders.unlock_reader ((tracks t).1.mp before) released
      | true =>
          rw [writes] at before
          rw [Finset.erase_eq_of_notMem (offR before)]
          exact holders.unlock_writer ((tracks t).2.mp writes) released

/-- A start initialises the lock, which does no harm while it is free. -/
theorem Inv.thread (inv : s.Inv) (isFree : s.lock = .free) (t : Nat) : (s.thread t).Inv := by
  obtain ⟨notHeld, R, W, holders, tracks⟩ := inv
  rw [isFree] at holders
  obtain ⟨rfl, rfl⟩ := holders.of_free
  have notHeld' : s.initProxyThread.initHeld = false := by simp [initProxyThread, notHeld, isFree]
  apply inv_enter (s := s.initProxyThread) notHeld' tracks
  show Holders Lock.free (Finset.erase ∅ t) (Finset.erase ∅ t)
  rw [Finset.erase_empty]
  exact Holders.free

/-- **One step** of any thread. -/
theorem Inv.step (inv : s.Inv) (keeps : s.Keeps act) (stepped : s.step act = some s') : s'.Inv := by
  rcases step_cases stepped with ⟨t, rfl, rfl⟩ | ⟨t, stage, lock, -, -, rfl, move⟩
  · exact inv.thread keeps t
  · exact inv.move move

theorem boot_inv : boot.Inv :=
  ⟨rfl, ∅, ∅, Holders.free, fun t => ⟨by simp [boot, Stage.reads], by simp [boot, Stage.writes]⟩⟩

/-! ## Runs -/

/-- Before the first initialisation no thread has started. -/
def Dormant (s : Process) : Prop := s.inits = 0 → s.lock = .free ∧ ∀ t, s.stage t = .unborn

/-- Every start initialises the lock, and nothing else does. -/
theorem step_inits (stepped : s.step act = some s') :
    s'.inits = s.inits + if isStart act then 1 else 0 := by
  rcases step_cases stepped with ⟨t, rfl, rfl⟩ | ⟨t, stage, lock, noStart, -, rfl, -⟩
  · rfl
  · rw [noStart]
    rfl

theorem Dormant.step (dormant : s.Dormant) (stepped : s.step act = some s') : s'.Dormant := by
  intro isEmpty
  rcases step_cases stepped with ⟨t, rfl, rfl⟩ | ⟨t, stage, lock, -, started, rfl, -⟩
  · cases isEmpty
  · exact absurd ((dormant isEmpty).2 t) started

theorem run_inits (run : Run (fun s act s' => s.step act = some s') s acts s') :
    s'.inits = s.inits + acts.countP isStart := by
  induction run with
  | nil => rfl
  | cons first _ ih =>
      rw [ih, step_inits first, List.countP_cons]
      omega

/-- In a run that initialises the lock once, the only start finds the lock free. -/
theorem run_keeps (run : Run (fun s act s' => s.step act = some s') s acts s') (dormant : s.Dormant)
    (once : s'.inits ≤ 1) : Run (fun s act s' => s.Keeps act ∧ s.step act = some s') s acts s' := by
  induction run with
  | nil => exact Run.nil _
  | @cons s mid s' act acts first rest ih =>
      refine Run.cons ⟨?_, first⟩ (ih (dormant.step first) once)
      cases act with
      | start t =>
          have counted := run_inits rest
          have before := step_inits first
          rw [isStart, if_pos rfl] at before
          exact (dormant (by omega)).1
      | _ => trivial

/-- No thread starts while the lock is held. -/
theorem run_inv (run : Run (fun s act s' => s.Keeps act ∧ s.step act = some s') boot acts s) : s.Inv :=
  run.invariant Inv boot_inv fun _ _ _ inv step => inv.step step.1 step.2

/-- **The lock excludes** where no thread starts while it is held; and it also is initialised
only once, and never while it is held, in exactly the runs that start at most one thread. -/
theorem rwlock_exclusive (acts : List LockStep) (s : Process) :
    (Run (fun s act s' => s.Keeps act ∧ s.step act = some s') boot acts s →
        s.Exclusive ∧ s.initHeld = false) ∧
      (Run (fun s act s' => s.step act = some s') boot acts s →
        ((∀ acts₁ s₁, acts₁ <+: acts → Run (fun s act s' => s.step act = some s') boot acts₁ s₁ →
            s₁.Exclusive ∧ s₁.inits ≤ 1 ∧ s₁.initHeld = false) ↔ acts.countP isStart ≤ 1)) := by
  refine ⟨fun run => ⟨(run_inv run).exclusive, (run_inv run).1⟩, fun run => ?_⟩
  constructor
  · intro claim
    have once := (claim acts s (List.prefix_refl acts) run).2.1
    rw [run_inits run] at once
    exact (Nat.le_add_left _ _).trans once
  · intro once acts₁ s₁ isPrefix run₁
    have count : s₁.inits = acts₁.countP isStart := by
      rw [run_inits run₁]
      exact Nat.zero_add _
    have once₁ : s₁.inits ≤ 1 := by
      rw [count]
      exact isPrefix.sublist.countP_le.trans once
    have inv := run_inv (run_keeps run₁ (fun _ => ⟨rfl, fun _ => rfl⟩) once₁)
    exact ⟨inv.exclusive, once₁, inv.1⟩

/-- One thread adds a response, and another starts when it is done. -/
def oneAfterAnother : List LockStep :=
  [.start 0, .rdlock 0, .rdunlock 0 false, .wrlock 0, .wrunlock 0, .start 1, .rdlock 1]

theorem rwlock_exclusive_oneAfterAnother : (∃ s, Run (fun s act s' => s.Keeps act ∧ s.step act = some s')
      boot oneAfterAnother s ∧ s.Exclusive ∧ s.initHeld = false) ∧
    ∃ s, Run (fun s act s' => s.step act = some s') boot oneAfterAnother s ∧
      ((∀ acts₁ s₁, acts₁ <+: oneAfterAnother →
          Run (fun s act s' => s.step act = some s') boot acts₁ s₁ →
          s₁.Exclusive ∧ s₁.inits ≤ 1 ∧ s₁.initHeld = false) ↔ oneAfterAnother.countP isStart ≤ 1) := by
  have returns : (oneAfterAnother.foldlM (fun (s : Process) act =>
      if (isStart act = true → s.lock = .free) then s.step act else none) boot).isSome = true := by
    decide +kernel
  obtain ⟨s, computed⟩ := Option.isSome_iff_exists.mp returns
  have run : Run (fun (s : Process) act s' => s.Keeps act ∧ s.step act = some s') boot oneAfterAnother s := by
    refine (Run.of_guarded computed).mono fun s act s' step => ⟨?_, step.2⟩
    cases act with
    | start t => exact step.1 rfl
    | _ => trivial
  have run' := run.mono fun s act s' step => step.2
  exact ⟨⟨s, run, (rwlock_exclusive _ s).1 run⟩, ⟨s, run', (rwlock_exclusive _ s).2 run'⟩⟩

/-- A thread starts while another one adds a response, and reads at the same time. -/
def startWhileHeld : List LockStep :=
  [.start 0, .rdlock 0, .rdunlock 0 false, .wrlock 0, .start 1, .rdlock 1]

theorem rwlock_exclusive_counterexample : ¬ ∀ (acts : List LockStep) (s : Process),
    Run (fun s act s' => s.step act = some s') boot acts s → s.Exclusive := by
  intro claim
  have inside : (startWhileHeld.foldlM step boot).map (fun s =>
      ((s.stage 0).writes, (s.stage 1).reads)) = some (true, true) := by
    decide +kernel
  obtain ⟨s, computed, facts⟩ := Option.map_eq_some_iff.mp inside
  obtain ⟨writes, reads⟩ := Prod.mk.inj facts
  have alone := (claim startWhileHeld s (Run.of_foldlM computed) 0 1 (by decide) writes).2
  rw [reads] at alone
  cases alone

end Process

end SystemsLabs.Proxy
