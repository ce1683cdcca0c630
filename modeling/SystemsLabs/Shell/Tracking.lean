/-
# SystemsLabs.Shell.Tracking -- whether every child of the shell has a job

`eval` ignores the result of `add_job`, which is 0 where the job ID `MAXJOBS` is in use.  The
child is then without a job until it ends, and if it is stopped before, the handler passes the
job ID 0 to `job_set_state`, which aborts the shell.
-/
import SystemsLabs.Shell.Foreground

namespace SystemsLabs.Shell

set_option autoImplicit false

open JobList SystemsLabs.Theory.Runs

/-- Every child has a job. -/
def Tracked (jobs : JobList) (children : List Int) : Prop :=
  ∀ pid ∈ children, ∃ jid job, jobs.job? jid = some job ∧ job.pid = pid

variable {jobs jobs' : JobList} {children children' : List Int} {jid pid : Int} {job : Job}

theorem Tracked.set (tracked : Tracked jobs children) (live : jobs.job? jid = some job) (state : JobState)
    (written : jobs'.job? = Function.update jobs.job? jid (some { job with state := state })) :
    Tracked jobs' children := by
  intro pid child
  obtain ⟨i, other, found, same⟩ := tracked pid child
  by_cases here : i = jid
  · subst here
    rw [live] at found
    cases found
    exact ⟨i, { job with state := state }, by rw [written, Function.update_self], same⟩
  · exact ⟨i, other, by rw [written, Function.update_of_ne here, found], same⟩

theorem Tracked.delete (tracked : Tracked jobs children) (live : jobs.job? jid = some job) (nodup : children.Nodup)
    (written : jobs'.job? = Function.update jobs.job? jid none) : Tracked jobs' (children.erase job.pid) := by
  intro pid child
  obtain ⟨different, child⟩ := nodup.mem_erase_iff.mp child
  obtain ⟨i, other, found, same⟩ := tracked pid child
  have elsewhere : i ≠ jid := by
    rintro rfl
    rw [live] at found
    cases found
    exact different same.symm
  exact ⟨i, other, by rw [written, Function.update_of_ne elsewhere, found], same⟩

theorem Tracked.add (tracked : Tracked jobs children) (consistent : jobs.Consistent) (same : job.pid = pid)
    (written : jobs'.job? = Function.update jobs.job? jobs.nextjid (some job)) : Tracked jobs' (pid :: children) := by
  intro other child
  obtain rfl | child := List.mem_cons.mp child
  · exact ⟨_, job, by rw [written, Function.update_self], same⟩
  · obtain ⟨i, known, found, is⟩ := tracked other child
    have elsewhere : i ≠ jobs.nextjid := by
      rintro rfl
      rw [consistent.free (Int.le_refl _)] at found
      cases found
    exact ⟨i, known, by rw [written, Function.update_of_ne elsewhere, found], is⟩

/-! ## The handler -/

theorem handleChange_tracked (sound : Sound jobs children) (tracked : Tracked jobs children) {change : Int × Change}
    (waited : waitpid children change = some children') :
    ∃ jobs', handleChange jobs change = .ok jobs' ∧ Tracked jobs' children' := by
  obtain ⟨pid, change⟩ := change
  rw [waitpid] at waited
  split at waited
  case isFalse => cases waited
  case isTrue child =>
  cases waited
  obtain ⟨none, _⟩ | ⟨jid, job, jobs', live, rfl, handled, consistent, written⟩ :=
    handleChange_spec sound.consistent (sound.positive pid child) change
  · obtain ⟨jid, job, live, same⟩ := tracked pid child
    exact absurd same (none jid job live)
  · refine ⟨jobs', handled, ?_⟩
    by_cases stopped : change = .stopped
    · rw [if_pos stopped] at written ⊢
      exact tracked.set live _ written
    · rw [if_neg stopped] at written ⊢
      exact tracked.delete live sound.nodup written

/-- With every child tracked the handler finds a job for every status change. -/
theorem sigchldHandler_tracked (changes : List (Int × Change)) : ∀ {jobs : JobList} {children : List Int},
    Sound jobs children → Tracked jobs children → changes.foldlM waitpid children = some children' →
      ∃ jobs', sigchldHandler jobs changes = .ok jobs' ∧ Tracked jobs' children' := by
  induction changes with
  | nil =>
      intro jobs children sound tracked waited
      cases waited
      exact ⟨jobs, rfl, tracked⟩
  | cons change changes ih =>
      intro jobs children sound tracked waited
      rw [List.foldlM_cons, Option.bind_eq_bind, Option.bind_eq_some_iff] at waited
      obtain ⟨middle, first, rest⟩ := waited
      unfold sigchldHandler
      rw [List.foldlM_cons]
      obtain ⟨jobs₁, handled, tracked₁⟩ := handleChange_tracked sound tracked first
      obtain failed | ⟨jobs₂, same, sound₁, _⟩ := handleChange_sound sound first
      · rw [failed] at handled; cases handled
      · rw [handled] at same ⊢
        cases same
        exact ih sound₁ tracked₁ rest

namespace Tsh

variable {s s' : Tsh} {cmdline : List Char} {env : Answers}

/-- Every child has a job, and the handler finds it. -/
def KeepsTrack (s : Tsh) : Prop :=
  Tracked s.jobs s.children ∧ ∀ changes children', changes.foldlM waitpid s.children = some children' →
    ∃ jobs', sigchldHandler s.jobs changes = .ok jobs'

theorem Invariant.keepsTrack (inv : s.Invariant) (running : s.Running) (tracked : Tracked s.jobs s.children) :
    s.KeepsTrack := by
  refine ⟨tracked, ?_⟩
  intro changes children' waited
  obtain ⟨jobs', handled, _⟩ := sigchldHandler_tracked changes (inv.sound running) tracked waited
  exact ⟨jobs', handled⟩

/-- A command keeps every child tracked, if there is a job ID for a new one. -/
theorem eval_tracked (inv : s.Invariant) (prompt : s.control = .prompt) (fresh : env.Fresh s.children)
    (tracked : Tracked s.jobs s.children)
    (room : ∀ pid, builtin? cmdline = some .none → env.fork = some pid → s.jobs.nextjid ≤ maxJobs)
    (running : (s.eval cmdline env).Running) : Tracked (s.eval cmdline env).jobs (s.eval cmdline env).children := by
  obtain ⟨sound, idle⟩ := inv.at_prompt prompt
  have evaluated : Evaluated s cmdline env (s.eval cmdline env) :=
    eval_evaluated sound.consistent (fgJob_eq_zero idle) (newProcess_of_fresh sound fresh)
  generalize s.eval cmdline env = s' at evaluated running ⊢
  cases evaluated with
  | quiet mask command => exact tracked
  | exited ends command => simp [Running, ends] at running
  | missed ends command => simp [Running, ends] at running
  | resumed command live consistent written delivered => exact tracked.set live _ written
  | foregrounded command live consistent written delivered => exact tracked.set live _ written
  | launched fork command room consistent written => exact tracked.add sound.consistent rfl written
  | launchedForeground fork command room consistent written => exact tracked.add sound.consistent rfl written
  | untracked fork command full =>
      have := room _ command fork
      omega

/-- Without a job ID for it, a new child is not tracked. -/
theorem eval_untracked (inv : s.Invariant) (prompt : s.control = .prompt) (fresh : env.Fresh s.children)
    (command : builtin? cmdline = some .none) (fork : env.fork = some pid) (full : maxJobs < s.jobs.nextjid) :
    (s.eval cmdline env).Running ∧ ¬ Tracked (s.eval cmdline env).jobs (s.eval cmdline env).children := by
  obtain ⟨sound, idle⟩ := inv.at_prompt prompt
  have evaluated : Evaluated s cmdline env (s.eval cmdline env) :=
    eval_evaluated sound.consistent (fgJob_eq_zero idle) (newProcess_of_fresh sound fresh)
  generalize s.eval cmdline env = s' at evaluated ⊢
  cases evaluated with
  | quiet mask quiet => exact absurd command quiet.launches
  | exited ends exits =>
      obtain quit | ⟨jobs, _⟩ | ⟨signals, _⟩ | ⟨_, none⟩ := exits
      · cases quit.symm.trans command
      · cases jobs.symm.trans command
      · exact absurd signals (not_signals_of_launch command)
      · cases none.symm.trans fork
  | missed ends misses =>
      obtain ⟨bg | fg, _⟩ := misses
      · cases bg.symm.trans command
      · cases fg.symm.trans command
  | resumed resumes live consistent written delivered => cases resumes.1.symm.trans command
  | foregrounded foregrounds live consistent written delivered => cases foregrounds.1.symm.trans command
  | launched fork command room consistent written => omega
  | launchedForeground fork command room consistent written => omega
  | untracked fork' command full =>
      rw [fork] at fork'
      cases fork'
      refine ⟨Or.inl rfl, ?_⟩
      intro tracked
      obtain ⟨jid, job, live, same⟩ := tracked pid List.mem_cons_self
      have known := sound.known jid job live
      rw [same] at known
      exact (fresh pid fork).2 known

theorem running_of_step {e : Event} (step : s.Step e s') : s.Running := by
  cases e with
  | command cmdline env =>
      rw [Step, Tsh.step] at step
      split at step
      case isTrue ready => exact Or.inl ready.1
      case isFalse => cases step
  | sigchld changes =>
      rw [Step, Tsh.step] at step
      split at step
      case isTrue delivered => exact running_of_receives delivered
      case isFalse => cases step
  | sigint ownGroup killpg =>
      rw [Step, Tsh.step] at step
      split at step
      case isTrue delivered => exact running_of_receives delivered
      case isFalse => cases step
  | sigtstp ownGroup killpg =>
      rw [Step, Tsh.step] at step
      split at step
      case isTrue delivered => exact running_of_receives delivered
      case isFalse => cases step

theorem step_tracked {e : Event} (inv : s.Invariant) (step : s.Step e s') (tracked : Tracked s.jobs s.children)
    (room : ∀ cmdline env pid, e = .command cmdline env → builtin? cmdline = some .none → env.fork = some pid →
      s.jobs.nextjid ≤ maxJobs)
    (running : s'.Running) : Tracked s'.jobs s'.children := by
  have sound := inv.sound (running_of_step step)
  cases step_stepped inv step with
  | command prompt fresh =>
      exact eval_tracked inv prompt fresh tracked (fun pid => room _ _ pid rfl) running
  | failed handler waited => simp [Running, aborts] at running
  | handled handler waited _ fades =>
      obtain ⟨jobs', handled, tracked'⟩ := sigchldHandler_tracked _ sound tracked waited
      rw [handler] at handled
      cases handled
      rw [wakes_jobs, wakes_children]
      exact tracked'
  | sent signal => exact tracked
  | unsent signal fails => exact tracked

theorem step_functional (s : Tsh) (e : Event) (s₁ s₂ : Tsh) (first : s.Step e s₁) (second : s.Step e s₂) : s₁ = s₂ := by
  rw [Step] at first second
  rw [first] at second
  exact Option.some.inj second

/-- In every launch of a run there is a job ID for the new child. -/
def HasRoom (start : Tsh) (es : List Event) : Prop :=
  ∀ before cmdline env after s pid, es = before ++ .command cmdline env :: after → Run Step start before s →
    builtin? cmdline = some .none → env.fork = some pid → s.jobs.nextjid ≤ maxJobs

/-- Every child is tracked in all states of a run exactly if every launch of the run finds a job
ID that is not in use. -/
theorem children_tracked {mask : SigSet} {es : List Event} (run : Run Step (initial mask) es s) :
    (∀ before after s, es = before ++ after → Run Step (initial mask) before s → s.Running → s.KeepsTrack) ↔
      HasRoom (initial mask) es := by
  constructor
  · intro keeps before cmdline env after s₁ pid split past command fork
    by_contra full
    rw [split] at run
    obtain ⟨mid, past', rest⟩ := run.split
    obtain rfl := past.unique step_functional past'
    cases rest with
    | @cons _ s₂ _ _ _ launch _ =>
        have inv := run_invariant past
        cases step_stepped inv launch with
        | command prompt fresh =>
            obtain ⟨running, untracked⟩ := eval_untracked inv prompt fresh command fork (by omega)
            have reached := past.trans (Run.cons launch (Run.nil _))
            exact untracked (keeps _ after _ (by simp [split]) reached running).1
        | sent signal => cases signal
        | unsent signal fails => cases signal
  · intro room before after s₁ split past running
    have inv := run_invariant past
    apply inv.keepsTrack running
    have kept := past.history (fun done s => ∀ after, es = done ++ after → s.Running → Tracked s.jobs s.children)
      ?_ ?_
    · exact kept after split running
    · intro after _ _ pid child
      cases child
    · intro done s₁ e s₂ past tracked step after split running
      have before := tracked (e :: after) (by simp [split]) (running_of_step step)
      refine step_tracked (run_invariant past) step before ?_ running
      rintro cmdline env pid rfl command fork
      exact room done cmdline env after s₁ pid (by simp [split]) past command fork

def backgroundLaunches (n : Nat) : List Event :=
  (List.range n).map fun i => .command "sleep 9 &".toList ⟨some (i + 1), true, .opened 3, .opened 3⟩

theorem children_tracked_twoLaunches : ∃ s, Run Step (initial ∅) (backgroundLaunches 2) s ∧
    ((∀ before after s, backgroundLaunches 2 = before ++ after → Run Step (initial ∅) before s → s.Running →
      s.KeepsTrack) ↔ HasRoom (initial ∅) (backgroundLaunches 2)) := by
  have computed : ((backgroundLaunches 2).foldlM step (initial ∅)).isSome = true := by decide +kernel
  obtain ⟨s, reached⟩ := Option.isSome_iff_exists.mp computed
  exact ⟨s, Run.of_foldlM reached, children_tracked (Run.of_foldlM reached)⟩

/-- The 65th child in the background has no job, and the shell aborts when it is stopped. -/
theorem children_tracked_counterexample : ∃ s, Run Step (initial ∅) (backgroundLaunches 65) s ∧
    s.control = .prompt ∧ 65 ∈ s.children ∧ (∀ jid job, s.jobs.job? jid = some job → job.pid ≠ 65) ∧
      ∃ s', s.Step (.sigchld [(65, .stopped)]) s' ∧ s'.control = .aborted (.requireJobExists "job_set_state" 0) := by
  have computed : ((backgroundLaunches 65).foldlM step (initial ∅)).any (fun s =>
      s.control = .prompt ∧ 65 ∈ s.children ∧ s.jobs.jobFromPid 65 = 0 ∧
        (s.step (.sigchld [(65, .stopped)])).any fun s' =>
          s'.control = .aborted (.requireJobExists "job_set_state" 0)) = true := by
    decide +kernel
  obtain ⟨s, reached, holds⟩ := Option.any_eq_true _ _ |>.mp computed
  obtain ⟨prompt, child, untracked, aborts⟩ := of_decide_eq_true holds
  obtain ⟨s', step, control⟩ := Option.any_eq_true _ _ |>.mp aborts
  refine ⟨s, Run.of_foldlM reached, prompt, child, ?_, s', step, of_decide_eq_true control⟩
  intro jid job live same
  obtain ⟨_, none⟩ | ⟨other, found, _⟩ := s.jobs.jobFromPid_spec 65 (by omega)
  · exact none jid job live same
  · simp [untracked] at found

end Tsh

end SystemsLabs.Shell
