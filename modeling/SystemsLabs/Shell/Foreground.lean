/-
# SystemsLabs.Shell.Foreground -- the foreground job over whole runs of the shell

The wait loop of `eval` ends only when its job is gone or no longer in the foreground, and the
handler never brings a job to the foreground.  So a foreground job is the one `eval` waits for,
and at the prompt there is none.
-/
import SystemsLabs.Shell.Commands
import SystemsLabs.Theory.Runs

namespace SystemsLabs.Shell

set_option autoImplicit false

open JobList SystemsLabs.Theory.Runs

/-- Live jobs are children of the shell, one for each. -/
structure Sound (jobs : JobList) (children : List Int) : Prop where
  consistent : jobs.Consistent
  distinct : ∀ i j job job', jobs.job? i = some job → jobs.job? j = some job' → job.pid = job'.pid → i = j
  known : ∀ i job, jobs.job? i = some job → job.pid ∈ children
  positive : ∀ pid ∈ children, 0 < pid
  nodup : children.Nodup

variable {jobs jobs' : JobList} {children children' : List Int} {jid pid : Int} {job : Job}

theorem sound_initial : Sound .initial [] := by
  refine ⟨consistent_initial, ?_, ?_, ?_, List.nodup_nil⟩
  · intro i j job job' live
    simp [job?_initial] at live
  · intro i job live
    simp [job?_initial] at live
  · intro pid child
    cases child

/-- What is live after one entry has changed. -/
theorem job?_update_cases {entry : Option Job} (written : jobs'.job? = Function.update jobs.job? jid entry) {i : Int}
    {other : Job} (live : jobs'.job? i = some other) :
    (i = jid ∧ entry = some other) ∨ (i ≠ jid ∧ jobs.job? i = some other) := by
  rw [written] at live
  by_cases same : i = jid
  · subst same
    exact Or.inl ⟨rfl, by simpa using live⟩
  · exact Or.inr ⟨same, by simpa [same] using live⟩

theorem Sound.set (sound : Sound jobs children) (consistent : jobs'.Consistent) (live : jobs.job? jid = some job)
    {state : JobState} (written : jobs'.job? = Function.update jobs.job? jid (some { job with state := state })) :
    Sound jobs' children := by
  have before : ∀ i other, jobs'.job? i = some other → ∃ old, jobs.job? i = some old ∧ old.pid = other.pid := by
    intro i other found
    obtain ⟨rfl, new⟩ | ⟨_, old⟩ := job?_update_cases written found
    · cases new
      exact ⟨job, live, rfl⟩
    · exact ⟨other, old, rfl⟩
  refine ⟨consistent, ?_, ?_, sound.positive, sound.nodup⟩
  · intro i j first second at_i at_j same
    obtain ⟨old, was, pid⟩ := before i first at_i
    obtain ⟨old', was', pid'⟩ := before j second at_j
    exact sound.distinct i j old old' was was' (by rw [pid, pid', same])
  · intro i other found
    obtain ⟨old, was, pid⟩ := before i other found
    rw [← pid]
    exact sound.known i old was

theorem Sound.delete (sound : Sound jobs children) (consistent : jobs'.Consistent) (live : jobs.job? jid = some job)
    (written : jobs'.job? = Function.update jobs.job? jid none) : Sound jobs' (children.erase job.pid) := by
  have before : ∀ i other, jobs'.job? i = some other → i ≠ jid ∧ jobs.job? i = some other := by
    intro i other found
    obtain ⟨_, impossible⟩ | old := job?_update_cases written found
    · cases impossible
    · exact old
  refine ⟨consistent, ?_, ?_, ?_, sound.nodup.erase _⟩
  · intro i j first second at_i at_j same
    exact sound.distinct i j first second (before i first at_i).2 (before j second at_j).2 same
  · intro i other found
    obtain ⟨different, old⟩ := before i other found
    have unequal : other.pid ≠ job.pid := fun same => different (sound.distinct i jid other job old live same)
    exact (List.mem_erase_of_ne unequal).mpr (sound.known i other old)
  · intro pid child
    exact sound.positive pid (List.mem_of_mem_erase child)

/-- A child that no job has leaves the list of jobs as it was. -/
theorem Sound.reap (sound : Sound jobs children) (none : ∀ i job, jobs.job? i = some job → job.pid ≠ pid) :
    Sound jobs (children.erase pid) := by
  refine ⟨sound.consistent, sound.distinct, ?_, ?_, sound.nodup.erase _⟩
  · intro i job live
    exact (List.mem_erase_of_ne (none i job live)).mpr (sound.known i job live)
  · intro pid child
    exact sound.positive pid (List.mem_of_mem_erase child)

theorem Sound.fork (sound : Sound jobs children) (positive : 0 < pid) (new : pid ∉ children) :
    Sound jobs (pid :: children) := by
  refine ⟨sound.consistent, sound.distinct, ?_, ?_, List.nodup_cons.mpr ⟨new, sound.nodup⟩⟩
  · intro i job live
    exact List.mem_cons_of_mem _ (sound.known i job live)
  · intro other child
    obtain rfl | child := List.mem_cons.mp child
    · exact positive
    · exact sound.positive other child

theorem Sound.add (sound : Sound jobs children) (positive : 0 < pid) (new : pid ∉ children)
    (consistent : jobs'.Consistent) (same : job.pid = pid)
    (written : jobs'.job? = Function.update jobs.job? jid (some job)) : Sound jobs' (pid :: children) := by
  have forked := sound.fork positive new
  refine ⟨consistent, ?_, ?_, forked.positive, forked.nodup⟩
  · intro i j first second at_i at_j pids
    obtain ⟨rfl, ⟨⟩⟩ | ⟨_, old⟩ := job?_update_cases written at_i <;>
      obtain ⟨rfl, ⟨⟩⟩ | ⟨_, old'⟩ := job?_update_cases written at_j
    · rfl
    · exact absurd (sound.known j second old') (by rw [← pids, same]; exact new)
    · exact absurd (sound.known i first old) (by rw [pids, same]; exact new)
    · exact sound.distinct i j first second old old' pids
  · intro i other found
    obtain ⟨rfl, ⟨⟩⟩ | ⟨_, old⟩ := job?_update_cases written found
    · rw [same]; exact List.mem_cons_self
    · exact List.mem_cons_of_mem _ (sound.known i other old)

/-! ## The handler -/

/-- Jobs are only stopped or removed. -/
def Fades (jobs jobs' : JobList) : Prop :=
  ∀ i job', jobs'.job? i = some job' → ∃ job, jobs.job? i = some job ∧ job.pid = job'.pid ∧ (job'.state = .fg → job' = job)

theorem Fades.refl (jobs : JobList) : Fades jobs jobs := fun _ job live => ⟨job, live, rfl, fun _ => rfl⟩

theorem Fades.trans {middle : JobList} (first : Fades jobs middle) (second : Fades middle jobs') : Fades jobs jobs' := by
  intro i job' live
  obtain ⟨between, live', pid', fg'⟩ := second i job' live
  obtain ⟨job, before, pid, fg⟩ := first i between live'
  refine ⟨job, before, pid.trans pid', ?_⟩
  intro foreground
  have same := fg' foreground
  rw [same] at foreground
  rw [same, fg foreground]

theorem handleChange_sound (sound : Sound jobs children) {change : Int × Change}
    (waited : waitpid children change = some children') :
    handleChange jobs change = .error (.requireJobExists "job_set_state" 0) ∨
      ∃ jobs', handleChange jobs change = .ok jobs' ∧ Sound jobs' children' ∧ Fades jobs jobs' := by
  obtain ⟨pid, change⟩ := change
  rw [waitpid] at waited
  split at waited
  case isFalse => cases waited
  case isTrue child =>
  cases waited
  obtain ⟨none, handled⟩ | ⟨jid, job, jobs', live, rfl, handled, consistent, written⟩ :=
    handleChange_spec sound.consistent (sound.positive pid child) change
  · rw [handled]
    by_cases stopped : change = .stopped
    · exact Or.inl (by rw [if_pos stopped])
    · refine Or.inr ⟨jobs, by rw [if_neg stopped], ?_, Fades.refl jobs⟩
      rw [if_neg stopped]
      exact sound.reap none
  · refine Or.inr ⟨jobs', handled, ?_, ?_⟩
    · by_cases stopped : change = .stopped
      · rw [if_pos stopped] at written ⊢
        exact sound.set consistent live written
      · rw [if_neg stopped] at written ⊢
        exact sound.delete consistent live written
    · intro i job' found
      obtain ⟨rfl, new⟩ | ⟨_, old⟩ := job?_update_cases written found
      · by_cases stopped : change = .stopped
        · rw [if_pos stopped] at new
          cases new
          exact ⟨job, live, rfl, by simp⟩
        · rw [if_neg stopped] at new
          cases new
      · exact ⟨job', old, rfl, fun _ => rfl⟩

/-- The handler keeps the jobs sound, unless a child without a job has stopped. -/
theorem sigchldHandler_sound (changes : List (Int × Change)) : ∀ {jobs : JobList} {children : List Int},
    Sound jobs children → changes.foldlM waitpid children = some children' →
      sigchldHandler jobs changes = .error (.requireJobExists "job_set_state" 0) ∨
        ∃ jobs', sigchldHandler jobs changes = .ok jobs' ∧ Sound jobs' children' ∧ Fades jobs jobs' := by
  induction changes with
  | nil =>
      intro jobs children sound waited
      cases waited
      exact Or.inr ⟨jobs, rfl, sound, Fades.refl jobs⟩
  | cons change changes ih =>
      intro jobs children sound waited
      rw [List.foldlM_cons, Option.bind_eq_bind, Option.bind_eq_some_iff] at waited
      obtain ⟨middle, first, rest⟩ := waited
      unfold sigchldHandler
      rw [List.foldlM_cons]
      obtain failed | ⟨jobs₁, handled, sound₁, fades₁⟩ := handleChange_sound sound first
      · exact Or.inl (by rw [failed]; rfl)
      · rw [handled]
        obtain failed | ⟨jobs₂, rest_ok, sound₂, fades₂⟩ := ih sound₁ rest
        · exact Or.inl failed
        · exact Or.inr ⟨jobs₂, rest_ok, sound₂, fades₁.trans fades₂⟩

namespace Tsh

variable {s s' : Tsh}

/-! ## The invariant of the shell -/

/-- The shell waits for the foreground job and for no other; where it aborts, a job ID of 0 was
passed to `job_set_state`. -/
def Invariant (s : Tsh) : Prop :=
  match s.control with
  | .prompt => Sound s.jobs s.children ∧ ∀ i job, s.jobs.job? i = some job → job.state ≠ .fg
  | .suspended jid pid _ =>
      Sound s.jobs s.children ∧ ∃ job, s.jobs.job? jid = some job ∧ job.pid = pid ∧ job.state = .fg
  | .exited => True
  | .aborted cause => cause = .requireJobExists "job_set_state" 0

theorem invariant_initial (mask : SigSet) : (initial mask).Invariant := by
  refine ⟨sound_initial, ?_⟩
  intro i job live
  simp [initial, job?_initial] at live

theorem Invariant.at_prompt (inv : s.Invariant) (prompt : s.control = .prompt) :
    Sound s.jobs s.children ∧ ∀ i job, s.jobs.job? i = some job → job.state ≠ .fg := by
  rw [Invariant, prompt] at inv
  exact inv

theorem Invariant.while_suspended {prevOne : SigSet} (inv : s.Invariant) (waits : s.control = .suspended jid pid prevOne) :
    Sound s.jobs s.children ∧ ∃ job, s.jobs.job? jid = some job ∧ job.pid = pid ∧ job.state = .fg := by
  rw [Invariant, waits] at inv
  exact inv

theorem newProcess_of_fresh {env : Answers} (sound : Sound s.jobs s.children) (fresh : env.Fresh s.children) :
    s.NewProcess env := by
  intro pid fork
  obtain ⟨positive, new⟩ := fresh pid fork
  refine ⟨positive, ?_⟩
  intro jid job live same
  exact new (same ▸ sound.known jid job live)

/-- A command keeps the invariant. -/
theorem eval_invariant {cmdline : List Char} {env : Answers} (inv : s.Invariant) (prompt : s.control = .prompt)
    (fresh : env.Fresh s.children) : (s.eval cmdline env).Invariant := by
  obtain ⟨sound, idle⟩ := inv.at_prompt prompt
  have evaluated : Evaluated s cmdline env (s.eval cmdline env) :=
    eval_evaluated sound.consistent (fgJob_eq_zero idle) (newProcess_of_fresh sound fresh)
  generalize s.eval cmdline env = s' at evaluated ⊢
  cases evaluated with
  | quiet mask command => exact ⟨sound, idle⟩
  | exited ends command =>
      rw [Invariant, ends]
      show True
      trivial
  | missed ends command => rw [Invariant, ends]
  | resumed command live consistent written delivered =>
      refine ⟨sound.set consistent live written, ?_⟩
      intro i job found
      obtain ⟨rfl, ⟨⟩⟩ | ⟨_, old⟩ := job?_update_cases written found
      · simp
      · exact idle i job old
  | @foregrounded jid job jobs command live consistent written delivered =>
      have waited : jobs.job? jid = some { job with state := .fg } := by rw [written, Function.update_self]
      exact ⟨sound.set consistent live written, _, waited, rfl, rfl⟩
  | launched fork command room consistent written =>
      obtain ⟨positive, new⟩ := fresh _ fork
      refine ⟨sound.add positive new consistent rfl written, ?_⟩
      intro i job found
      obtain ⟨rfl, ⟨⟩⟩ | ⟨_, old⟩ := job?_update_cases written found
      · simp
      · exact idle i job old
  | launchedForeground fork command room consistent written =>
      obtain ⟨positive, new⟩ := fresh _ fork
      exact ⟨sound.add positive new consistent rfl written, _, by rw [written, Function.update_self], rfl, rfl⟩
  | untracked fork command full =>
      obtain ⟨positive, new⟩ := fresh _ fork
      exact ⟨sound.fork positive new, idle⟩

/-- After a handler the shell still waits for the foreground job, or there is none. -/
theorem wakes_invariant (inv : s.Invariant) (sound : Sound jobs' children') (fades : Fades s.jobs jobs') :
    (wakes { s with jobs := jobs', children := children' }).Invariant := by
  cases control : s.control with
  | prompt =>
      obtain ⟨_, idle⟩ := inv.at_prompt control
      show Sound jobs' children' ∧ ∀ i job, jobs'.job? i = some job → job.state ≠ .fg
      refine ⟨sound, ?_⟩
      intro i job live fg
      obtain ⟨old, before, _, same⟩ := fades i job live
      rw [same fg] at fg
      exact idle i old before fg
  | suspended jid pid prevOne =>
      obtain ⟨was, job, waited, rfl, fg⟩ := inv.while_suspended control
      show (waits { s with jobs := jobs', children := children', control := .suspended jid job.pid prevOne } jid job.pid
        prevOne).Invariant
      by_cases still : ∃ other, jobs'.job? jid = some other ∧ other.state = .fg
      · obtain ⟨other, live, foreground⟩ := still
        obtain ⟨old, before, pid, _⟩ := fades jid other live
        rw [waits_of_fg (by exact live) foreground]
        refine ⟨sound, other, live, ?_, foreground⟩
        rw [waited] at before
        cases before
        exact pid.symm
      · rw [waits_of_not_fg]
        · refine ⟨sound, ?_⟩
          intro i other live foreground
          obtain ⟨old, before, _, same⟩ := fades i other live
          have old_fg : old.state = .fg := by rw [← same foreground]; exact foreground
          have here := was.consistent.foreground i jid old job before waited old_fg fg
          subst here
          exact still ⟨other, live, foreground⟩
        · intro other live foreground
          exact still ⟨other, live, foreground⟩
  | exited =>
      show True
      trivial
  | aborted cause =>
      rw [Invariant, control] at inv
      show cause = .requireJobExists "job_set_state" 0
      exact inv

theorem forwards_eq (ownGroup killpg : Bool) :
    s.forwards ownGroup killpg = s ∨ (s.forwards ownGroup killpg = s.exits ∧ killpg = false) := by
  unfold forwards
  split
  case isFalse => exact Or.inl rfl
  case isTrue found =>
    obtain ⟨zero, _⟩ | ⟨job, live, _⟩ := s.jobs.fgJob_spec
    · omega
    · rw [jobGetPid_eq live, checked_ok]
      cases ownGroup <;> cases killpg <;> simp

theorem wakes_exits : s.exits.wakes = s.exits := rfl

theorem wakes_self (inv : s.Invariant) : s.wakes = s := by
  unfold wakes
  split
  case h_1 jid pid prevOne control =>
    obtain ⟨_, job, live, _, fg⟩ := inv.while_suspended control
    rw [waits_of_fg live fg, ← control]
  case h_2 => rfl

/-- A signal from the keyboard changes nothing, or ends the shell if it cannot be sent. -/
theorem forwards_wakes (inv : s.Invariant) (ownGroup killpg : Bool) :
    (s.forwards ownGroup killpg).wakes = s ∨ ((s.forwards ownGroup killpg).wakes = s.exits ∧ killpg = false) := by
  obtain same | ⟨ends, failed⟩ := s.forwards_eq ownGroup killpg
  · exact Or.inl (by rw [same, wakes_self inv])
  · exact Or.inr ⟨by rw [ends, wakes_exits], failed⟩

/-- What a step of the shell can be. -/
inductive Stepped (s : Tsh) : Event → Tsh → Prop
  | command {cmdline : List Char} {env : Answers} (prompt : s.control = .prompt) (fresh : env.Fresh s.children) :
      Stepped s (.command cmdline env) (s.eval cmdline env)
  | failed {changes : List (Int × Change)} {children' : List Int}
      (handler : sigchldHandler s.jobs changes = .error (.requireJobExists "job_set_state" 0))
      (waited : changes.foldlM waitpid s.children = some children') :
      Stepped s (.sigchld changes) (s.aborts (.requireJobExists "job_set_state" 0))
  | handled {changes : List (Int × Change)} {jobs' : JobList} {children' : List Int}
      (handler : sigchldHandler s.jobs changes = .ok jobs') (waited : changes.foldlM waitpid s.children = some children')
      (sound : Sound jobs' children') (fades : Fades s.jobs jobs') :
      Stepped s (.sigchld changes) (wakes { s with jobs := jobs', children := children' })
  | sent {e : Event} (signal : e.isCommand = false) : Stepped s e s
  | unsent {e : Event} (signal : e.isCommand = false) (fails : e.sends = false) : Stepped s e s.exits

theorem running_of_receives {sig : Nat} (delivered : s.receives sig = true) : s.Running := by
  unfold receives at delivered
  cases control : s.control with
  | prompt => exact Or.inl control
  | suspended jid pid prevOne => exact Or.inr ⟨jid, pid, prevOne, control⟩
  | exited => simp [control] at delivered
  | aborted cause => simp [control] at delivered

theorem Invariant.sound (inv : s.Invariant) (running : s.Running) : Sound s.jobs s.children := by
  obtain prompt | ⟨jid, pid, prevOne, suspended⟩ := running
  · exact (inv.at_prompt prompt).1
  · exact (inv.while_suspended suspended).1

theorem forwards_stepped {e : Event} {killpg : Bool} (inv : s.Invariant) (ownGroup : Bool)
    (signal : e.isCommand = false) (sends : e.sends = killpg) : Stepped s e (s.forwards ownGroup killpg).wakes := by
  obtain same | ⟨ends, fails⟩ := forwards_wakes inv ownGroup killpg
  · rw [same]
    exact .sent signal
  · rw [ends]
    apply Stepped.unsent signal
    rw [sends, fails]

theorem step_stepped {e : Event} (inv : s.Invariant) (step : s.Step e s') : Stepped s e s' := by
  cases e with
  | command cmdline env =>
      rw [Step, Tsh.step] at step
      split at step
      case isFalse => cases step
      case isTrue ready =>
        cases step
        exact .command ready.1 ready.2
  | sigchld changes =>
      rw [Step, Tsh.step] at step
      split at step
      case isFalse => cases step
      case isTrue delivered =>
        obtain ⟨children', waited, rfl⟩ := Option.map_eq_some_iff.mp step
        obtain failed | ⟨jobs', handled, sound, fades⟩ :=
          sigchldHandler_sound changes (inv.sound (running_of_receives delivered)) waited
        · rw [failed, checked_error]
          exact .failed failed waited
        · rw [handled, checked_ok]
          exact .handled handled waited sound fades
  | sigint ownGroup killpg =>
      rw [Step, Tsh.step, sigintHandler] at step
      split at step
      case isFalse => cases step
      case isTrue =>
        cases step
        exact forwards_stepped inv ownGroup rfl rfl
  | sigtstp ownGroup killpg =>
      rw [Step, Tsh.step, sigtstpHandler] at step
      split at step
      case isFalse => cases step
      case isTrue =>
        cases step
        exact forwards_stepped inv ownGroup rfl rfl

theorem step_invariant {e : Event} (inv : s.Invariant) (step : s.Step e s') : s'.Invariant := by
  cases step_stepped inv step with
  | command prompt fresh => exact eval_invariant inv prompt fresh
  | failed handler waited => rfl
  | handled handler waited sound fades => exact wakes_invariant inv sound fades
  | sent signal => exact inv
  | unsent signal fails => trivial

theorem run_invariant {mask : SigSet} {es : List Event} (run : Run Step (initial mask) es s) : s.Invariant :=
  run.invariant Invariant (invariant_initial mask) fun _ _ _ inv step => step_invariant inv step

/-! ## The command behind the foreground job -/

/-- The command launches the job or moves it to the foreground. -/
def BringsForeground (s : Tsh) (cmdline : List Char) (env : Answers) (jid pid : Int) : Prop :=
  (LaunchesForeground cmdline ∧ env.fork = some pid ∧ jid = s.jobs.nextjid) ∨ Foregrounds s.jobs cmdline jid pid

/-- The last command of a run is the one that brought the job to the foreground. -/
def CarriesOut (start : Tsh) (es : List Event) (jid pid : Int) : Prop :=
  ∃ before cmdline env after s, es = before ++ .command cmdline env :: after ∧ Run Step start before s ∧
    s.control = .prompt ∧ s.BringsForeground cmdline env jid pid ∧ ∀ e ∈ after, e.isCommand = false

theorem CarriesOut.concat {start : Tsh} {es : List Event} {e : Event} (carries : CarriesOut start es jid pid)
    (signal : e.isCommand = false) : CarriesOut start (es ++ [e]) jid pid := by
  obtain ⟨before, cmdline, env, after, s, rfl, run, prompt, brings, signals⟩ := carries
  refine ⟨before, cmdline, env, after ++ [e], s, by simp, run, prompt, brings, ?_⟩
  intro e' later
  obtain earlier | last := List.mem_append.mp later
  · exact signals e' earlier
  · rwa [List.mem_singleton.mp last]

/-- A command that is waited for has brought its job to the foreground. -/
theorem eval_suspended {cmdline : List Char} {env : Answers} {prevOne : SigSet} (inv : s.Invariant)
    (prompt : s.control = .prompt) (fresh : env.Fresh s.children)
    (waits : (s.eval cmdline env).control = .suspended jid pid prevOne) : s.BringsForeground cmdline env jid pid := by
  obtain ⟨sound, idle⟩ := inv.at_prompt prompt
  have evaluated : Evaluated s cmdline env (s.eval cmdline env) :=
    eval_evaluated sound.consistent (fgJob_eq_zero idle) (newProcess_of_fresh sound fresh)
  generalize s.eval cmdline env = s' at evaluated waits
  cases evaluated with
  | quiet mask command => cases waits
  | exited ends command => rw [ends] at waits; cases waits
  | missed ends command => rw [ends] at waits; cases waits
  | resumed command live consistent written delivered => cases waits
  | foregrounded command live consistent written delivered =>
      cases waits
      exact Or.inr command
  | launched fork command room consistent written => cases waits
  | launchedForeground fork command room consistent written =>
      cases waits
      exact Or.inl ⟨command, fork, rfl⟩
  | untracked fork command full => cases waits

/-- The shell goes on waiting for the same job. -/
theorem wakes_suspended {prevOne : SigSet} (waits : s.wakes.control = .suspended jid pid prevOne) :
    s.control = .suspended jid pid prevOne := by
  unfold wakes at waits
  split at waits
  case h_2 => exact waits
  case h_1 jid' pid' prevOne' control =>
    obtain same | same := s.waits_cases jid' pid' prevOne'
    · rw [same] at waits
      rwa [control]
    · rw [same] at waits
      cases waits

/-- Whom the shell waits for was brought to the foreground by the last command. -/
theorem run_carriesOut {mask : SigSet} {es : List Event} {prevOne : SigSet} (run : Run Step (initial mask) es s)
    (waits : s.control = .suspended jid pid prevOne) : CarriesOut (initial mask) es jid pid := by
  have kept := run.history (fun es s => ∀ prevOne, s.control = .suspended jid pid prevOne →
    CarriesOut (initial mask) es jid pid) (by intro _ impossible; cases impossible) ?_
  · exact kept prevOne waits
  intro es s₁ e s₂ past carries step prevOne suspended
  have inv := run_invariant past
  cases step_stepped inv step with
  | command prompt fresh =>
      exact ⟨es, _, _, [], s₁, rfl, past, prompt, eval_suspended inv prompt fresh suspended, by simp⟩
  | failed handler waited => cases suspended
  | handled handler waited sound fades =>
      have waiting := wakes_suspended suspended
      exact (carries prevOne waiting).concat rfl
  | sent signal => exact (carries prevOne suspended).concat signal
  | unsent signal fails => cases suspended

/-- What the shell promises about foreground jobs after the events `es`. -/
structure ForegroundDiscipline (mask : SigSet) (es : List Event) (s : Tsh) : Prop where
  one : s.Running → ∀ i j job job', s.jobs.job? i = some job → s.jobs.job? j = some job' →
    job.state = .fg → job'.state = .fg → i = j
  waited : s.Running → ∀ i job, s.jobs.job? i = some job → job.state = .fg →
    (∃ prevOne, s.control = .suspended i job.pid prevOne) ∧ CarriesOut (initial mask) es i job.pid
  idle : s.control = .prompt → ∀ i job, s.jobs.job? i = some job → job.state ≠ .fg
  free : ∀ cause, s.control = .aborted cause →
    cause ≠ .addForeground ∧ ∀ jid foreground, cause ≠ .anotherForeground jid foreground

/-- One job at most is in the foreground, and only while `eval` carries out the command that
brought it there. -/
theorem foreground_discipline {mask : SigSet} {es : List Event} (run : Run Step (initial mask) es s) :
    ForegroundDiscipline mask es s := by
  have inv := run_invariant run
  have waited : s.Running → ∀ i job, s.jobs.job? i = some job → job.state = .fg →
      ∃ prevOne, s.control = .suspended i job.pid prevOne := by
    rintro (prompt | ⟨jid, pid, prevOne, suspended⟩) i job live fg
    · exact absurd fg ((inv.at_prompt prompt).2 i job live)
    · obtain ⟨sound, other, found, rfl, fg'⟩ := inv.while_suspended suspended
      obtain rfl := sound.consistent.foreground i jid job other live found fg fg'
      rw [live] at found
      cases found
      exact ⟨prevOne, suspended⟩
  constructor
  · intro running i j job job' live live' fg fg'
    obtain ⟨_, at_i⟩ := waited running i job live fg
    obtain ⟨_, at_j⟩ := waited running j job' live' fg'
    rw [at_i] at at_j
    exact (Control.suspended.inj at_j).1
  · intro running i job live fg
    obtain ⟨prevOne, suspended⟩ := waited running i job live fg
    exact ⟨⟨prevOne, suspended⟩, run_carriesOut run suspended⟩
  · intro prompt
    exact (inv.at_prompt prompt).2
  · intro cause aborted
    rw [Invariant, aborted] at inv
    subst inv
    exact ⟨by simp, by simp⟩

/-- A job is launched, stopped, and resumed in the foreground. -/
def resumingEvents : List Event := [.command "sleep 9".toList ⟨some 7, true, .opened 3, .opened 3⟩,
  .sigchld [(7, .stopped)], .command "fg %1".toList ⟨none, true, .opened 3, .opened 3⟩]

theorem foreground_discipline_resuming : ∃ s, Run Step (initial ∅) resumingEvents s ∧ s.jobs.fgJob = 1 ∧
    ForegroundDiscipline ∅ resumingEvents s := by
  have computed : (resumingEvents.foldlM step (initial ∅)).any (·.jobs.fgJob = 1) = true := by decide +kernel
  cases reached : resumingEvents.foldlM step (initial ∅) with
  | none => rw [reached] at computed; cases computed
  | some s =>
      rw [reached, Option.any_some, decide_eq_true_eq] at computed
      have run : Run Step (initial ∅) resumingEvents s := Run.of_foldlM reached
      exact ⟨s, run, computed, foreground_discipline run⟩

end Tsh

end SystemsLabs.Shell
