/-
# SystemsLabs.Shell.Survival -- which commands bring the shell back to its prompt

A command comes back at once or waits for its job.  It ends the shell in four ways: `jobs`
exits if it cannot open its output file, `bg` and `fg` abort on a pid that no job has and exit if
the process group of the job is not there yet, and while `eval` waits, the handler aborts when a
child without a job is stopped.
-/
import SystemsLabs.Shell.Tracking

namespace SystemsLabs.Shell

set_option autoImplicit false

open JobList SystemsLabs.Theory.Runs

/-- The command is waited for. -/
def Waits (l : JobList) (cmdline : List Char) : Prop :=
  (LaunchesForeground cmdline ∧ l.nextjid ≤ maxJobs) ∨ ∃ jid pid, Foregrounds l cmdline jid pid

variable {jobs jobs' : JobList} {children children' : List Int} {jid pid : Int} {job : Job}

theorem tracked_set_iff (live : jobs.job? jid = some job) {state : JobState}
    (written : jobs'.job? = Function.update jobs.job? jid (some { job with state := state })) :
    Tracked jobs' children ↔ Tracked jobs children := by
  constructor
  · intro tracked
    have changed : jobs'.job? jid = some { job with state := state } := by rw [written, Function.update_self]
    apply tracked.set changed job.state
    rw [written, Function.update_idem]
    exact (Function.update_eq_self_iff.mpr live.symm).symm
  · intro tracked
    exact tracked.set live state written

theorem tracked_add_iff (consistent : jobs.Consistent) (new : pid ∉ children) (same : job.pid = pid)
    (written : jobs'.job? = Function.update jobs.job? jobs.nextjid (some job)) :
    Tracked jobs' (pid :: children) ↔ Tracked jobs children := by
  constructor
  · intro tracked other child
    obtain ⟨i, known, found, is⟩ := tracked other (List.mem_cons_of_mem _ child)
    obtain ⟨_, ⟨⟩⟩ | ⟨_, old⟩ := job?_update_cases written found
    · rw [same] at is
      exact absurd (is ▸ child) new
    · exact ⟨i, known, old, is⟩
  · intro tracked
    exact tracked.add consistent same written

namespace Tsh

variable {s s' : Tsh} {prevOne : SigSet}

/-! ## Waiting -/

/-- A step while `eval` waits, in which signals from the keyboard reach their process group. -/
def WaitStep (s : Tsh) (e : Event) (s' : Tsh) : Prop :=
  (∃ jid pid prevOne, s.control = .suspended jid pid prevOne) ∧ s.Step e s' ∧ e.sends = true

/-- `eval` has returned, or else, whatever signals it gets while it waits, the next status
change of the process it waits for lets it return. -/
def Returns (s : Tsh) : Prop :=
  ∀ es s', Run WaitStep s es s' → s'.control = .prompt ∨
    ∃ jid pid prevOne, s'.control = .suspended jid pid prevOne ∧ pid ∈ s'.children ∧
      ∀ change, ∃ s'', s'.Step (.sigchld [(pid, change)]) s'' ∧ s''.control = .prompt

theorem returns_of_prompt (prompt : s.control = .prompt) : s.Returns := by
  intro es s' run
  cases run with
  | nil => exact Or.inl prompt
  | cons first _ =>
      obtain ⟨⟨jid, pid, prevOne, suspended⟩, _⟩ := first
      rw [prompt] at suspended
      cases suspended

theorem not_running_of_exited (exited : s.control = .exited) : ¬ s.Running := by simp [Running, exited]

theorem not_running_of_aborted {cause : Abort} (aborted : s.control = .aborted cause) : ¬ s.Running := by
  simp [Running, aborted]

theorem not_returns_of_ended (ended : ¬ s.Running) : ¬ s.Returns := by
  intro returns
  obtain prompt | ⟨jid, pid, prevOne, suspended, _⟩ := returns [] s (Run.nil s)
  · exact ended (Or.inl prompt)
  · exact ended (Or.inr ⟨jid, pid, prevOne, suspended⟩)

/-- While `eval` waits, the handler runs on a status change of any child. -/
theorem step_one_change (suspended : s.control = .suspended jid pid prevOne) {child : Int} (known : child ∈ s.children)
    (change : Change) :
    ∃ children', s.step (.sigchld [(child, change)]) = some (s.checked (handleChange s.jobs (child, change)) fun jobs =>
      wakes { s with jobs := jobs, children := children' }) := by
  have received : s.receives Shell.sigchld = true := by simp [receives, suspended]
  have waited : [(child, change)].foldlM waitpid s.children =
      some (if change = .stopped then s.children else s.children.erase child) := by
    simp [waitpid, known]
  refine ⟨if change = .stopped then s.children else s.children.erase child, ?_⟩
  rw [step, if_pos received, waited, Option.map_some]
  simp [sigchldHandler]

/-- A status change of the process that is waited for ends the waiting. -/
theorem sigchld_returns (inv : s.Invariant) (suspended : s.control = .suspended jid pid prevOne) (change : Change) :
    ∃ s', s.Step (.sigchld [(pid, change)]) s' ∧ s'.control = .prompt := by
  obtain ⟨sound, job, live, rfl, fg⟩ := inv.while_suspended suspended
  have child := sound.known jid job live
  obtain ⟨none, _⟩ | ⟨i, other, jobs', found, same, handled, consistent, written⟩ :=
    handleChange_spec sound.consistent (sound.positive _ child) change
  · exact absurd rfl (none jid job live)
  obtain rfl := sound.distinct i jid other job found live same
  rw [live] at found
  cases found
  have ended : ∀ job, jobs'.job? i = some job → job.state ≠ .fg := by
    intro job found
    rw [written, Function.update_self] at found
    by_cases stopped : change = .stopped
    · rw [if_pos stopped] at found
      cases found
      simp
    · rw [if_neg stopped] at found
      cases found
  obtain ⟨children', step⟩ := step_one_change suspended child change
  rw [handled, checked_ok] at step
  refine ⟨_, step, ?_⟩
  simp only [wakes, suspended]
  rw [waits_of_not_fg ended]
  show Control.prompt = .prompt
  rfl

/-- A child without a job ends the waiting, and the shell, when it is stopped. -/
theorem untracked_aborts (inv : s.Invariant) (suspended : s.control = .suspended jid pid prevOne) {child : Int}
    (known : child ∈ s.children) (untracked : ∀ i job, s.jobs.job? i = some job → job.pid ≠ child) :
    ∃ s', s.Step (.sigchld [(child, .stopped)]) s' ∧ ¬ s'.Running := by
  obtain ⟨sound, _⟩ := inv.while_suspended suspended
  obtain ⟨_, failed⟩ | ⟨i, other, _, found, same, _⟩ :=
    handleChange_spec sound.consistent (sound.positive child known) .stopped
  · obtain ⟨children', step⟩ := step_one_change suspended known .stopped
    rw [failed, if_pos rfl, checked_error] at step
    exact ⟨_, step, not_running_of_aborted rfl⟩
  · exact absurd same (untracked i other found)

theorem wakes_running (running : s.Running) : s.wakes.Running := by
  unfold wakes
  split
  case h_1 jid pid prevOne _ =>
    obtain same | same := s.waits_cases jid pid prevOne
    · rw [same]; exact Or.inr ⟨jid, pid, prevOne, rfl⟩
    · rw [same]; exact Or.inl rfl
  case h_2 => exact running

/-- While `eval` waits with every child tracked, the shell goes on. -/
theorem waitStep_running {e : Event} (inv : s.Invariant) (tracked : Tracked s.jobs s.children) (step : WaitStep s e s') :
    s'.Running := by
  obtain ⟨⟨jid, pid, prevOne, suspended⟩, step, sends⟩ := step
  obtain ⟨sound, _⟩ := inv.while_suspended suspended
  have waiting : s.Running := Or.inr ⟨jid, pid, prevOne, suspended⟩
  cases step_stepped inv step with
  | command prompt fresh => rw [suspended] at prompt; cases prompt
  | failed handler waited =>
      obtain ⟨jobs', handled, _⟩ := sigchldHandler_tracked _ sound tracked waited
      rw [handler] at handled
      cases handled
  | handled handler waited _ fades => exact wakes_running waiting
  | sent signal => exact waiting
  | unsent signal fails => rw [fails] at sends; cases sends

/-- Waiting comes to an end exactly if every child has a job. -/
theorem returns_iff_tracked (inv : s.Invariant) (suspended : s.control = .suspended jid pid prevOne) :
    s.Returns ↔ Tracked s.jobs s.children := by
  constructor
  · intro returns child known
    by_contra untracked
    obtain ⟨s', step, ended⟩ := untracked_aborts inv suspended known
      (fun i job live same => untracked ⟨i, job, live, same⟩)
    obtain prompt | ⟨i, other, mask, waiting, _⟩ :=
      returns _ s' (Run.cons ⟨⟨jid, pid, prevOne, suspended⟩, step, rfl⟩ (Run.nil s'))
    · exact ended (Or.inl prompt)
    · exact ended (Or.inr ⟨i, other, mask, waiting⟩)
  · intro tracked es s' run
    have kept := run.invariant
      (fun s => s.Invariant ∧ s.Running ∧ Tracked s.jobs s.children)
      ⟨inv, Or.inr ⟨jid, pid, prevOne, suspended⟩, tracked⟩ ?_
    · obtain ⟨inv', prompt | ⟨i, other, mask, waiting⟩, _⟩ := kept
      · exact Or.inl prompt
      · obtain ⟨sound, job, live, same, _⟩ := inv'.while_suspended waiting
        refine Or.inr ⟨i, other, mask, waiting, ?_, sigchld_returns inv' waiting⟩
        rw [← same]
        exact sound.known i job live
    · rintro s₁ e s₂ ⟨inv, _, tracked⟩ step
      have running := waitStep_running inv tracked step
      obtain ⟨⟨i, other, mask, waiting⟩, step, _⟩ := step
      refine ⟨step_invariant inv step, running, step_tracked inv step tracked ?_ running⟩
      rintro cmdline env pid rfl
      cases step_stepped inv step with
      | command prompt fresh => rw [waiting] at prompt; cases prompt
      | sent signal => cases signal
      | unsent signal fails => cases signal

/-! ## Commands -/

/-- An argument that names a live job does not miss. -/
theorem not_misses_of_live {cmdline : List Char} (live : jobs.job? jid = some job)
    (named : argumentJob jobs ((parseline cmdline).2.argv.getD 1 []) = .ok (some (jid, pid))) :
    ¬ MissesJob jobs cmdline := by
  rintro ⟨_, _, names⟩
  rw [argumentJob_of_namesNoJob names] at named
  cases named
  simp at live

theorem not_misses_of_launch {cmdline : List Char} (command : builtin? cmdline = some .none) :
    ¬ MissesJob jobs cmdline := by
  rintro ⟨bg | fg, _⟩
  · rw [bg] at command; cases command
  · rw [fg] at command; cases command

theorem not_refuses {cmdline : List Char} {env : Answers} {builtin : BuiltinState}
    (command : builtin? cmdline = some builtin) (other : builtin ≠ .jobs) : ¬ RefusesFile cmdline env := by
  rintro ⟨jobs, _⟩
  rw [command] at jobs
  exact other (Option.some.inj jobs)

/-- The command opens its file, names a job whose process group is there, and if it is waited for,
every child has a job. -/
structure Harmless (s : Tsh) (cmdline : List Char) (env : Answers) : Prop where
  opens : ¬ RefusesFile cmdline env
  names : ¬ MissesJob s.jobs cmdline
  delivers : Signals s.jobs cmdline → env.killpg = true
  tracked : Waits s.jobs cmdline → Tracked s.jobs s.children

def answersFork (pid : Int) : Answers := ⟨some pid, true, .opened 3, .opened 3⟩

end Tsh

end SystemsLabs.Shell
