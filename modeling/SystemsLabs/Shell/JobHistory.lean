/-
# SystemsLabs.Shell.JobHistory -- the job list over whole histories

`nextjid` goes up by one in `add_job` and is found again by a scan in `delete_job`.  Over any
sequence of calls that does not abort it stays one more than the largest live job ID, which
makes the job IDs that `add_job` hands out new (`history_orderly`).
-/
import SystemsLabs.Shell.JobList
import SystemsLabs.Theory.Runs

namespace SystemsLabs.Shell

set_option autoImplicit false

open Theory.Runs

/-- The calls that change the job list. -/
inductive JobOp where
  | addJob (pid : Int) (state : JobState) (cmdline : List Char)
  | deleteJob (jid : Int)
  | jobSetState (jid : Int) (state : JobState)
deriving DecidableEq, Repr

namespace JobList

def apply (l : JobList) : JobOp → Except Abort JobList
  | .addJob pid state cmdline => (l.addJob pid state cmdline).map Prod.snd
  | .deleteJob jid => (l.deleteJob jid).map Prod.snd
  | .jobSetState jid state => l.jobSetState jid state

variable {l l' : JobList} {jid pid : Int} {job : Job} {state : JobState} {cmdline : List Char}

theorem exists_of_map_eq_ok {α β : Type} {f : α → β} {answer : Except Abort α} {b : β}
    (returned : answer.map f = .ok b) : ∃ a, answer = .ok a ∧ f a = b := by
  cases answer with
  | error cause => cases returned
  | ok a => exact ⟨a, rfl, Except.ok.inj returned⟩

/-- The arguments of `add_job` pass its checks. -/
def Accepts (l : JobList) (pid : Int) (state : JobState) : Prop :=
  0 < pid ∧ state ≠ .undefined ∧ (state = .fg → l.fgJob = 0)

/-- `add_job` rejects the other arguments with a message of its own. -/
theorem addJob_of_not_accepts (cmdline : List Char) (rejected : ¬ l.Accepts pid state) :
    ∃ cause, l.addJob pid state cmdline = .error cause ∧ cause ≠ .assertion := by
  unfold addJob
  split
  · split
    · exact ⟨_, rfl, by simp⟩
    · exact ⟨_, rfl, by simp⟩
  · next allowed =>
    split
    · exact ⟨_, rfl, by simp⟩
    · next positive =>
      refine absurd ⟨not_le.mp positive, ?_, ?_⟩ rejected
      · rintro rfl
        simp at allowed
      · rintro rfl
        simpa using allowed

theorem accepts_of_addJob {answer : Int × JobList} (added : l.addJob pid state cmdline = .ok answer) :
    l.Accepts pid state := by
  by_contra rejected
  obtain ⟨cause, error, -⟩ := addJob_of_not_accepts cmdline rejected
  cases added.symm.trans error

theorem Accepts.spec (accepts : l.Accepts pid state) (ok : l.Consistent) (cmdline : List Char) :
    (maxJobs < l.nextjid ∧ l.addJob pid state cmdline = .ok (0, l)) ∨
      l.nextjid ≤ maxJobs ∧ ∃ l', l.addJob pid state cmdline = .ok (l.nextjid, l') ∧ l'.Consistent ∧
        l'.job? = Function.update l.job? l.nextjid (some ⟨pid, l.nextjid, state, some cmdline⟩) :=
  addJob_spec ok accepts.1 state accepts.2.1 accepts.2.2 cmdline

/-- A state that was set was allowed. -/
theorem allowed_of_jobSetState (set : l.jobSetState jid state = .ok l') :
    ∃ job, l.job? jid = some job ∧ state ≠ .undefined ∧ (state = .fg → l.fgJob = 0) := by
  cases live : l.job? jid with
  | none =>
      rw [jobSetState_of_none live] at set
      cases set
  | some job =>
      refine ⟨job, rfl, ?_⟩
      unfold jobSetState at set
      rw [requireJobExists_of_job? live] at set
      cases valid : l.requireValidState jid state with
      | error cause =>
          rw [valid] at set
          cases set
      | ok _ =>
          unfold requireValidState at valid
          split at valid
          · cases valid
          · next defined =>
            split at valid
            · cases valid
            · next alone => exact ⟨defined, fun fg => by_contra fun taken => alone ⟨fg, taken⟩⟩

/-- **A call** that does not abort keeps the list consistent. -/
theorem Consistent.apply {op : JobOp} (ok : l.Consistent) (step : l.apply op = .ok l') : l'.Consistent := by
  cases op with
  | addJob pid state cmdline =>
      obtain ⟨answer, added, rfl⟩ := exists_of_map_eq_ok step
      obtain ⟨-, full⟩ | ⟨-, next, room, consistent, -⟩ := (accepts_of_addJob added).spec ok cmdline
      · obtain rfl := Except.ok.inj (added.symm.trans full)
        exact ok
      · obtain rfl := Except.ok.inj (added.symm.trans room)
        exact consistent
  | deleteJob jid =>
      obtain ⟨answer, deleted, rfl⟩ := exists_of_map_eq_ok step
      cases live : l.job? jid with
      | none =>
          obtain rfl := Except.ok.inj (deleted.symm.trans (deleteJob_of_none live))
          exact ok
      | some job =>
          obtain ⟨next, removed, consistent, -⟩ := deleteJob_spec ok live
          obtain rfl := Except.ok.inj (deleted.symm.trans removed)
          exact consistent
  | jobSetState jid state =>
      obtain ⟨job, live, defined, alone⟩ := allowed_of_jobSetState step
      obtain ⟨next, set, kept, written⟩ := jobSetState_spec live state defined alone
      obtain rfl := Except.ok.inj (Eq.trans (show l.jobSetState jid state = .ok l' from step).symm set)
      exact ok.set live kept alone written

/-- What callers may rely on. -/
structure Orderly (l : JobList) : Prop where
  /-- `nextjid` is one more than the largest live job ID, or 1 -/
  next : IsGreatest (insert 0 l.liveJids) (l.nextjid - 1)
  slot : ∀ k, l.jobExists k = true → (l.slot k).jid = k ∧ 0 < (l.slot k).pid
  free : ∀ k : Int, l.nextjid ≤ k → k ≤ maxJobs → (l.slot k).state = .undefined
  asserts : ∀ pid state cmdline, l.addJob pid state cmdline ≠ .error .assertion
  fresh : ∀ pid state cmdline jid l', l.addJob pid state cmdline = .ok (jid, l') → jid ≠ 0 →
    l.jobExists jid = false ∧ l'.jobExists jid = true
  foreground : ∀ k, l.jobExists k = true ∧ (l.slot k).state = .fg ↔ l.fgJob = k ∧ k ≠ 0
  deletes : ∀ k, ∃ l', l.deleteJob k = .ok (l.jobExists k, l') ∧ l'.job? = Function.update l.job? k none

/-- `job_from_pid` and `job_get_pid` are inverse to each other on live jobs. -/
structure PidsInverse (l : JobList) : Prop where
  fromPid : ∀ k, l.jobExists k = true → ∃ pid, l.jobGetPid k = .ok pid ∧ l.jobFromPid pid = k
  getPid : ∀ pid, l.jobFromPid pid ≠ 0 →
    l.jobExists (l.jobFromPid pid) = true ∧ l.jobGetPid (l.jobFromPid pid) = .ok pid

/-- No two live jobs have the same process. -/
def DistinctPids (l : JobList) : Prop :=
  ∀ i j, l.jobExists i = true → l.jobExists j = true → (l.slot i).pid = (l.slot j).pid → i = j

theorem job?_of_jobExists (live : l.jobExists jid = true) : l.job? jid = some (l.slot jid) :=
  job?_eq_some.mpr ⟨live, rfl⟩

theorem Consistent.fgJob_eq (ok : l.Consistent) (live : l.job? jid = some job) (fg : job.state = .fg) :
    l.fgJob = jid := by
  obtain ⟨-, none⟩ | ⟨other, found, fg'⟩ := l.fgJob_spec
  · exact absurd fg (none jid job live)
  · exact ok.foreground _ _ _ _ found live fg' fg

theorem Consistent.orderly (ok : l.Consistent) : l.Orderly where
  next := ok.next
  slot := fun k live => ok.named k _ (job?_of_jobExists live)
  free := by
    intro k later inside
    by_contra used
    have first := ok.one_le_nextjid
    have live : l.jobExists k = true := jobExists_iff.mpr ⟨⟨by omega, inside⟩, used⟩
    rw [jobExists_eq, ok.free later] at live
    cases live
  asserts := by
    intro pid state cmdline failed
    by_cases accepts : l.Accepts pid state
    · obtain ⟨-, full⟩ | ⟨-, next, room, -⟩ := accepts.spec ok cmdline
      · cases failed.symm.trans full
      · cases failed.symm.trans room
    · obtain ⟨cause, error, other⟩ := addJob_of_not_accepts cmdline accepts
      exact other (Except.error.inj (error.symm.trans failed))
  fresh := by
    intro pid state cmdline jid l' added nonzero
    obtain ⟨-, full⟩ | ⟨-, next, room, -, written⟩ := (accepts_of_addJob added).spec ok cmdline
    · exact absurd (congrArg Prod.fst (Except.ok.inj (added.symm.trans full))) nonzero
    · obtain ⟨rfl, rfl⟩ := Prod.mk.inj (Except.ok.inj (added.symm.trans room))
      rw [jobExists_eq, jobExists_eq, ok.free (le_refl _), written, Function.update_self]
      exact ⟨rfl, rfl⟩
  foreground := by
    intro k
    constructor
    · rintro ⟨live, fg⟩
      have range := (jobExists_iff.mp live).1
      exact ⟨ok.fgJob_eq (job?_of_jobExists live) fg, by omega⟩
    · rintro ⟨rfl, nonzero⟩
      obtain ⟨zero, -⟩ | ⟨job, found, fg⟩ := l.fgJob_spec
      · exact absurd zero nonzero
      · obtain ⟨live, rfl⟩ := job?_eq_some.mp found
        exact ⟨live, fg⟩
  deletes := by
    intro k
    cases live : l.job? k with
    | none =>
        refine ⟨l, ?_, ?_⟩
        · rw [deleteJob_of_none live, jobExists_eq, live]
          rfl
        · rw [← live, Function.update_eq_self]
    | some job =>
        obtain ⟨l', removed, -, written⟩ := deleteJob_spec ok live
        refine ⟨l', ?_, written⟩
        rw [removed, jobExists_eq, live]
        rfl

theorem Consistent.pidsInverse (ok : l.Consistent) (distinct : l.DistinctPids) : l.PidsInverse where
  fromPid := by
    intro k live
    have found := job?_of_jobExists live
    refine ⟨_, jobGetPid_eq found, jobFromPid_eq (ok.named k _ found).2 found rfl ?_⟩
    intro j other found' same
    obtain ⟨live', rfl⟩ := job?_eq_some.mp found'
    exact distinct j k live' live same
  getPid := by
    intro pid nonzero
    obtain ⟨job, found, rfl⟩ := job?_jobFromPid nonzero
    exact ⟨(job?_eq_some.mp found).1, jobGetPid_eq found⟩

/-- **Over any history** that does not abort the list stays orderly, and where no two live jobs
have the same pid, job IDs and pids determine each other. -/
theorem history_orderly {ops : List JobOp} (run : Run (fun l op l' => l.apply op = .ok l') initial ops l) :
    l.Orderly ∧ (l.DistinctPids → l.PidsInverse) := by
  have ok : l.Consistent := run.invariant Consistent consistent_initial fun _ _ _ ok step => ok.apply step
  exact ⟨ok.orderly, ok.pidsInverse⟩

/-- A job is added after an earlier one was deleted. -/
theorem history_orderly_recycled : ∃ l, Run (fun l op l' => l.apply op = .ok l') initial
      [.addJob 10 .bg ['a'], .addJob 11 .fg ['b'], .deleteJob 1, .deleteJob 2, .addJob 12 .fg ['c']] l ∧
    l.Orderly ∧ (l.DistinctPids → l.PidsInverse) := by
  obtain ⟨l, run⟩ : ∃ l, Run (fun l op l' => l.apply op = .ok l') initial
      [.addJob 10 .bg ['a'], .addJob 11 .fg ['b'], .deleteJob 1, .deleteJob 2, .addJob 12 .fg ['c']] l :=
    ⟨_, .cons rfl (.cons rfl (.cons rfl (.cons rfl (.cons rfl (.nil _)))))⟩
  exact ⟨l, run, history_orderly run⟩

end JobList

end SystemsLabs.Shell
