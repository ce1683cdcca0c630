/-
# SystemsLabs.Shell.Commands -- what a command and a child status change can do

At the prompt there is no foreground job, and then each of the commands does one of a few
things to the job list.  `Evaluated` lists them once, and `handleChange_spec` lists what a
pass of the handler does; the invariants of the shell are read off these.
-/
import SystemsLabs.Shell.Eval

namespace SystemsLabs.Shell

set_option autoImplicit false

open JobList

variable {l : JobList} {jid pid : Int} {job : Job}

/-! ## The handler -/

/-- One status change of a child acts on its job, and aborts if there is none to be stopped. -/
theorem handleChange_spec (ok : l.Consistent) (positive : 0 < pid) (change : Change) :
    ((∀ jid job, l.job? jid = some job → job.pid ≠ pid) ∧
      handleChange l (pid, change) =
        if change = .stopped then .error (.requireJobExists "job_set_state" 0) else .ok l) ∨
    ∃ jid job l', l.job? jid = some job ∧ job.pid = pid ∧ handleChange l (pid, change) = .ok l' ∧ l'.Consistent ∧
      l'.job? = Function.update l.job? jid (if change = .stopped then some { job with state := .st } else none) := by
  obtain ⟨zero, none⟩ | ⟨job, live, same⟩ := jobFromPid_spec (l := l) pid positive
  · have deleted := deleteJob_of_none (job?_zero (l := l))
    have stopped := jobSetState_of_none (job?_zero (l := l)) .st
    refine Or.inl ⟨none, ?_⟩
    cases change <;> simp [handleChange, zero, deleted, stopped, bind, Except.bind, pure, Except.pure]
  · obtain ⟨deleted, delete, keeps, removed⟩ := deleteJob_spec ok live
    obtain ⟨stopped, set, next, written⟩ := jobSetState_spec live .st (by simp) (by simp)
    have stays := ok.set live next (by simp) written
    cases change with
    | stopped => exact Or.inr ⟨_, job, stopped, live, same, set, stays, written⟩
    | exited =>
        refine Or.inr ⟨_, job, deleted, live, same, ?_, keeps, removed⟩
        simp [handleChange, delete, bind, Except.bind, pure, Except.pure]
    | signaled =>
        refine Or.inr ⟨_, job, deleted, live, same, ?_, keeps, removed⟩
        simp [handleChange, delete, bind, Except.bind, pure, Except.pure]

/-! ## The commands -/

/-- A pid argument of `bg` or `fg` that no job has. -/
def NamesNoJob (l : JobList) (arg : List Char) : Prop :=
  (arg.headD '\x00').isDigit = true ∧ atoi arg ≠ 0 ∧ l.jobFromPid (atoi arg) = 0

theorem argumentJob_of_namesNoJob {arg : List Char} (names : NamesNoJob l arg) :
    argumentJob l arg = .ok (some (0, atoi arg)) := by
  obtain ⟨digit, nonzero, none⟩ := names
  unfold argumentJob
  split
  case h_1 number => simp at digit
  case h_2 => simp only [digit, nonzero, none, Bool.not_true, Bool.false_eq_true, if_false]

/-- An argument names a live job, or is answered with a message, or names no job. -/
theorem argumentJob_spec (l : JobList) (arg : List Char) :
    argumentJob l arg = .ok none ∨
      (∃ jid job, l.job? jid = some job ∧ argumentJob l arg = .ok (some (jid, job.pid))) ∨ NamesNoJob l arg := by
  by_cases names : NamesNoJob l arg
  · exact Or.inr (Or.inr names)
  unfold argumentJob
  split
  case h_1 number =>
      dsimp only
      cases live : l.job? (atoi number) with
      | none =>
          apply Or.inl
          rw [if_pos (by simp [jobExists_eq, live])]
      | some job =>
          refine Or.inr (Or.inl ⟨_, job, live, ?_⟩)
          rw [if_neg (by simp [jobExists_eq, live])]
          simp [jobGetPid_eq live, bind, Except.bind, pure, Except.pure]
  case h_2 =>
      by_cases digit : (arg.headD '\x00').isDigit = true
      · rw [if_neg (by simpa using digit)]
        by_cases zero : atoi arg = 0
        · exact Or.inl (by simp [zero])
        · have found : l.jobFromPid (atoi arg) ≠ 0 := fun none => names ⟨digit, zero, none⟩
          obtain ⟨job, live, same⟩ := job?_jobFromPid found
          exact Or.inr (Or.inl ⟨_, job, live, by rw [if_neg zero, same]⟩)
      · exact Or.inl (by rw [if_pos (by simpa using digit)])

namespace Tsh

variable {s : Tsh} {token : CmdlineTokens} {env : Answers} {prevOne : SigSet}

@[simp] theorem checked_ok {α : Type} (s : Tsh) (a : α) (next : α → Tsh) : s.checked (.ok a) next = next a := rfl

@[simp] theorem checked_error {α : Type} (s : Tsh) (cause : Abort) (next : α → Tsh) :
    s.checked (.error cause) next = s.aborts cause := rfl

/-- `jobs` is to write to a file that cannot be opened. -/
def Refused (token : CmdlineTokens) (env : Answers) : Prop :=
  token.outfile.isSome = true ∧ getoutFd env.rdwr env.wronly = none

theorem evalJobs_of_refused (refused : Refused token env) : s.evalJobs token env prevOne = s.exits := by
  obtain ⟨outfile, none⟩ := refused
  obtain ⟨name, set⟩ := Option.isSome_iff_exists.mp outfile
  simp [evalJobs, set, none]

theorem evalJobs_of_opened (opened : ¬ Refused token env) : s.evalJobs token env prevOne = s.returns prevOne := by
  unfold evalJobs
  cases set : token.outfile with
  | none =>
      obtain ⟨lines, printed⟩ := s.jobs.listJobs_of_nonneg 1 (by omega)
      simp only [printed, checked_ok]
  | some name =>
      dsimp only
      cases opens : getoutFd env.rdwr env.wronly with
      | none => exact absurd ⟨by simp [set], opens⟩ opened
      | some fd =>
          obtain ⟨lines, printed⟩ := s.jobs.listJobs_of_nonneg fd (by omega)
          simp only [printed, checked_ok]

theorem waits_of_fg (live : s.jobs.job? jid = some job) (fg : job.state = .fg) :
    s.waits jid pid prevOne = { s with control := .suspended jid pid prevOne } := by
  simp [waits, jobExists_eq, live, jobGetState_eq live, fg]

theorem waits_of_not_fg (other : ∀ job, s.jobs.job? jid = some job → job.state ≠ .fg) :
    s.waits jid pid prevOne = s.returns prevOne := by
  unfold waits
  cases live : s.jobs.job? jid with
  | none => simp [jobExists_eq, live]
  | some job => simp [jobExists_eq, live, jobGetState_eq live, other job live]

/-- The loop waits, or `eval` returns. -/
theorem waits_cases (s : Tsh) (jid pid : Int) (prevOne : SigSet) :
    s.waits jid pid prevOne = { s with control := .suspended jid pid prevOne } ∨
      s.waits jid pid prevOne = s.returns prevOne := by
  by_cases fg : ∃ job, s.jobs.job? jid = some job ∧ job.state = .fg
  · obtain ⟨job, live, fg⟩ := fg
    exact Or.inl (waits_of_fg live fg)
  · exact Or.inr (waits_of_not_fg fun job live is => fg ⟨job, live, is⟩)

@[simp] theorem wakes_jobs : s.wakes.jobs = s.jobs := by
  unfold wakes
  split
  case h_1 jid pid prevOne _ =>
    obtain same | same := s.waits_cases jid pid prevOne
    · rw [same]
    · rw [same]; rfl
  case h_2 => rfl

@[simp] theorem wakes_children : s.wakes.children = s.children := by
  unfold wakes
  split
  case h_1 jid pid prevOne _ =>
    obtain same | same := s.waits_cases jid pid prevOne
    · rw [same]
    · rw [same]; rfl
  case h_2 => rfl

end Tsh

/-! ## What `eval` does -/

/-- The kind of command that `eval` carries out, if the line is one. -/
def builtin? (cmdline : List Char) : Option BuiltinState :=
  let (result, token) := parseline cmdline
  if result = .error ∨ result = .empty then none else some token.builtin

/-- `bg` or `fg` with a pid that no job has. -/
def MissesJob (l : JobList) (cmdline : List Char) : Prop :=
  (builtin? cmdline = some .bg ∨ builtin? cmdline = some .fg) ∧ (parseline cmdline).2.argv.length ≠ 1 ∧
    NamesNoJob l ((parseline cmdline).2.argv.getD 1 [])

/-- `jobs` with an output file that cannot be opened. -/
def RefusesFile (cmdline : List Char) (env : Answers) : Prop :=
  builtin? cmdline = some .jobs ∧ Tsh.Refused (parseline cmdline).2 env

/-- `bg` of the job and the process that its argument names. -/
def Resumes (l : JobList) (cmdline : List Char) (jid pid : Int) : Prop :=
  builtin? cmdline = some .bg ∧ (parseline cmdline).2.argv.length ≠ 1 ∧
    argumentJob l ((parseline cmdline).2.argv.getD 1 []) = .ok (some (jid, pid))

/-- `fg` of the job and the process that its argument names. -/
def Foregrounds (l : JobList) (cmdline : List Char) (jid pid : Int) : Prop :=
  builtin? cmdline = some .fg ∧ (parseline cmdline).2.argv.length ≠ 1 ∧
    argumentJob l ((parseline cmdline).2.argv.getD 1 []) = .ok (some (jid, pid))

/-- A command that is no builtin, to be run in the foreground. -/
def LaunchesForeground (cmdline : List Char) : Prop :=
  builtin? cmdline = some .none ∧ (parseline cmdline).1 = .fg

/-- A command that is no builtin, to be run in the background. -/
def LaunchesBackground (cmdline : List Char) : Prop :=
  builtin? cmdline = some .none ∧ (parseline cmdline).1 = .bg

/-- `bg` or `fg` of a live job, whose process group is sent `SIGCONT`. -/
def Signals (l : JobList) (cmdline : List Char) : Prop :=
  ∃ jid job, l.job? jid = some job ∧ (Resumes l cmdline jid job.pid ∨ Foregrounds l cmdline jid job.pid)

theorem not_signals_of_launch {cmdline : List Char} (command : builtin? cmdline = some .none) : ¬ Signals l cmdline := by
  rintro ⟨_, _, _, resumes | foregrounds⟩
  · cases resumes.1.symm.trans command
  · cases foregrounds.1.symm.trans command

/-- A command that is over at once: a list of jobs, or a message, or no command at all. -/
structure Quiet (l : JobList) (cmdline : List Char) (env : Answers) : Prop where
  launches : builtin? cmdline ≠ some .none
  resumes : ∀ jid pid, ¬ Resumes l cmdline jid pid
  misses : ¬ MissesJob l cmdline
  refuses : ¬ RefusesFile cmdline env
  foregrounds : ∀ jid pid, ¬ Foregrounds l cmdline jid pid

/-- A command that ends the shell. -/
def Exits (l : JobList) (cmdline : List Char) (env : Answers) : Prop :=
  builtin? cmdline = some .quit ∨ RefusesFile cmdline env ∨ (Signals l cmdline ∧ env.killpg = false) ∨
    (builtin? cmdline = some .none ∧ env.fork = none)

/-- What `eval` makes of the shell at the prompt. -/
inductive Evaluated (s : Tsh) (cmdline : List Char) (env : Answers) : Tsh → Prop
  | quiet (mask : SigSet) (command : Quiet s.jobs cmdline env) : Evaluated s cmdline env (s.returns mask)
  | exited {s' : Tsh} (ends : s'.control = .exited) (command : Exits s.jobs cmdline env) : Evaluated s cmdline env s'
  | missed {s' : Tsh} (ends : s'.control = .aborted (.requireJobExists "job_set_state" 0))
      (command : MissesJob s.jobs cmdline) : Evaluated s cmdline env s'
  | resumed {jid : Int} {job : Job} {jobs : JobList} (command : Resumes s.jobs cmdline jid job.pid)
      (live : s.jobs.job? jid = some job) (consistent : jobs.Consistent)
      (written : jobs.job? = Function.update s.jobs.job? jid (some { job with state := .bg }))
      (delivered : env.killpg = true) :
      Evaluated s cmdline env (Tsh.returns { s with jobs := jobs } s.mask)
  | foregrounded {jid : Int} {job : Job} {jobs : JobList} (command : Foregrounds s.jobs cmdline jid job.pid)
      (live : s.jobs.job? jid = some job) (consistent : jobs.Consistent)
      (written : jobs.job? = Function.update s.jobs.job? jid (some { job with state := .fg }))
      (delivered : env.killpg = true) :
      Evaluated s cmdline env
        { s with jobs := jobs, mask := s.mask ∪ maskAll, control := .suspended jid job.pid s.mask }
  | launched {pid : Int} {jobs : JobList} (fork : env.fork = some pid) (command : LaunchesBackground cmdline)
      (room : s.jobs.nextjid ≤ maxJobs) (consistent : jobs.Consistent)
      (written : jobs.job? =
        Function.update s.jobs.job? s.jobs.nextjid (some ⟨pid, s.jobs.nextjid, .bg, some cmdline⟩)) :
      Evaluated s cmdline env (Tsh.returns { s with jobs := jobs, children := pid :: s.children } s.mask)
  | launchedForeground {pid : Int} {jobs : JobList} (fork : env.fork = some pid) (command : LaunchesForeground cmdline)
      (room : s.jobs.nextjid ≤ maxJobs) (consistent : jobs.Consistent)
      (written : jobs.job? =
        Function.update s.jobs.job? s.jobs.nextjid (some ⟨pid, s.jobs.nextjid, .fg, some cmdline⟩)) :
      Evaluated s cmdline env
        ⟨jobs, pid :: s.children, s.mask ∪ maskAll, .suspended s.jobs.nextjid pid s.mask⟩
  | untracked {pid : Int} (fork : env.fork = some pid) (command : builtin? cmdline = some .none)
      (full : maxJobs < s.jobs.nextjid) :
      Evaluated s cmdline env (Tsh.returns { s with children := pid :: s.children } s.mask)

namespace Tsh

variable {s : Tsh} {cmdline : List Char} {env : Answers}

/-- The shell with the signals blocked. -/
def blocked (s : Tsh) : Tsh := { s with mask := s.mask ∪ maskAll }

/-- `eval` by the kind of command. -/
theorem eval_eq (s : Tsh) (cmdline : List Char) (env : Answers) : s.eval cmdline env =
    match builtin? cmdline with
    | none => s.returns s.mask
    | some .quit => s.blocked.exits
    | some .jobs => s.blocked.evalJobs (parseline cmdline).2 env s.mask
    | some .bg => s.blocked.evalBg (parseline cmdline).2 env s.mask
    | some .fg => s.blocked.evalFg (parseline cmdline).2 env s.mask
    | some .none => s.blocked.evalFork (parseline cmdline).1 cmdline env s.mask := by
  unfold eval builtin?
  by_cases stops : (parseline cmdline).1 = .error ∨ (parseline cmdline).1 = .empty
  · simp only [if_pos stops]
    rfl
  · simp only [if_neg stops]
    cases (parseline cmdline).2.builtin <;> rfl

theorem quiet_of_bare {l : JobList} (bare : (parseline cmdline).2.argv.length = 1)
    (command : builtin? cmdline = some .bg ∨ builtin? cmdline = some .fg) : Quiet l cmdline env := by
  refine ⟨?_, fun _ _ resumes => resumes.2.1 bare, fun misses => misses.2.1 bare, ?_,
    fun _ _ foregrounds => foregrounds.2.1 bare⟩
  · obtain same | same := command <;> simp [same]
  · rintro ⟨jobs, _⟩
    obtain same | same := command <;> simp [same] at jobs

theorem quiet_of_message {l : JobList} (message : argumentJob l ((parseline cmdline).2.argv.getD 1 []) = .ok none)
    (command : builtin? cmdline = some .bg ∨ builtin? cmdline = some .fg) : Quiet l cmdline env := by
  refine ⟨?_, ?_, ?_, ?_, ?_⟩
  · obtain same | same := command <;> simp [same]
  · rintro jid pid ⟨_, _, named⟩
    rw [named] at message
    cases message
  · rintro ⟨_, _, names⟩
    rw [argumentJob_of_namesNoJob names] at message
    cases message
  · rintro ⟨jobs, _⟩
    obtain same | same := command <;> simp [same] at jobs
  · rintro jid pid ⟨_, _, named⟩
    rw [named] at message
    cases message

/-- A command that is neither `bg` nor `fg`, and is not run, is quiet. -/
theorem quiet_of_other {l : JobList} (launches : builtin? cmdline ≠ some .none) (bg : builtin? cmdline ≠ some .bg)
    (fg : builtin? cmdline ≠ some .fg) (refuses : ¬ RefusesFile cmdline env) : Quiet l cmdline env := by
  refine ⟨launches, fun _ _ resumes => bg resumes.1, ?_, refuses, fun _ _ foregrounds => fg foregrounds.1⟩
  rintro ⟨command | command, _⟩
  · exact bg command
  · exact fg command

theorem evalBg_evaluated (ok : s.jobs.Consistent) (command : builtin? cmdline = some .bg) :
    Evaluated s cmdline env (s.blocked.evalBg (parseline cmdline).2 env s.mask) := by
  unfold evalBg
  by_cases bare : (parseline cmdline).2.argv.length = 1
  · rw [if_pos bare]
    exact .quiet _ (quiet_of_bare bare (Or.inl command))
  rw [if_neg bare]
  obtain message | ⟨jid, job, live, named⟩ | names := argumentJob_spec s.jobs ((parseline cmdline).2.argv.getD 1 [])
  · simp only [blocked, message, checked_ok]
    exact .quiet _ (quiet_of_message message (Or.inl command))
  · obtain ⟨jobs, set, next, written⟩ := jobSetState_spec live .bg (by simp) (by simp)
    have consistent := ok.set live next (by simp) written
    have printed : jobs.job? jid = some { job with state := .bg } := by simp [written]
    simp only [blocked, named, checked_ok, set, jobGetCmdline_eq printed]
    cases killpg : env.killpg with
    | false => exact .exited rfl (Or.inr (Or.inr (Or.inl ⟨⟨jid, job, live, Or.inl ⟨command, bare, named⟩⟩, killpg⟩)))
    | true => exact .resumed ⟨command, bare, named⟩ live consistent written killpg
  · simp only [blocked, argumentJob_of_namesNoJob names, checked_ok, jobSetState_of_none job?_zero, checked_error]
    exact .missed rfl ⟨Or.inl command, bare, names⟩

theorem evalFg_evaluated (ok : s.jobs.Consistent) (idle : s.jobs.fgJob = 0) (command : builtin? cmdline = some .fg) :
    Evaluated s cmdline env (s.blocked.evalFg (parseline cmdline).2 env s.mask) := by
  unfold evalFg
  by_cases bare : (parseline cmdline).2.argv.length = 1
  · rw [if_pos bare]
    exact .quiet _ (quiet_of_bare bare (Or.inr command))
  rw [if_neg bare]
  obtain message | ⟨jid, job, live, named⟩ | names := argumentJob_spec s.jobs ((parseline cmdline).2.argv.getD 1 [])
  · simp only [blocked, message, checked_ok]
    exact .quiet _ (quiet_of_message message (Or.inr command))
  · obtain ⟨jobs, set, next, written⟩ := jobSetState_spec live .fg (by simp) (fun _ => idle)
    have consistent := ok.set live next (fun _ => idle) written
    have waiting : jobs.job? jid = some { job with state := .fg } := by simp [written]
    simp only [blocked, named, checked_ok, set]
    cases killpg : env.killpg with
    | false => exact .exited rfl (Or.inr (Or.inr (Or.inl ⟨⟨jid, job, live, Or.inr ⟨command, bare, named⟩⟩, killpg⟩)))
    | true =>
        rw [if_neg (by simp), waits_of_fg waiting rfl]
        exact .foregrounded ⟨command, bare, named⟩ live consistent written killpg
  · simp only [blocked, argumentJob_of_namesNoJob names, checked_ok, jobSetState_of_none job?_zero, checked_error]
    exact .missed rfl ⟨Or.inr command, bare, names⟩

/-- A new process is no process of a job. -/
def NewProcess (s : Tsh) (env : Answers) : Prop :=
  ∀ pid, env.fork = some pid → 0 < pid ∧ ∀ jid job, s.jobs.job? jid = some job → job.pid ≠ pid

theorem evalFork_evaluated (ok : s.jobs.Consistent) (idle : s.jobs.fgJob = 0) (command : builtin? cmdline = some .none)
    (accepted : (parseline cmdline).1 ≠ .error ∧ (parseline cmdline).1 ≠ .empty) (new : s.NewProcess env) :
    Evaluated s cmdline env (s.blocked.evalFork (parseline cmdline).1 cmdline env s.mask) := by
  unfold evalFork
  cases fork : env.fork with
  | none => exact .exited rfl (Or.inr (Or.inr (Or.inr ⟨command, fork⟩)))
  | some pid =>
      obtain ⟨positive, unused⟩ := new pid fork
      have untracked : s.jobs.jobFromPid pid = 0 := by
        obtain ⟨zero, _⟩ | ⟨job, live, same⟩ := jobFromPid_spec (l := s.jobs) pid positive
        · exact zero
        · exact absurd same (unused _ job live)
      cases result : (parseline cmdline).1 with
      | error => exact absurd result accepted.1
      | empty => exact absurd result accepted.2
      | bg =>
          obtain ⟨full, same⟩ | ⟨room, jobs, added, consistent, written⟩ :=
            addJob_spec ok positive .bg (by simp) (by simp) cmdline
          · simp only [blocked, if_true, same, checked_ok]
            exact .untracked fork command full
          · simp only [blocked, if_true, added, checked_ok]
            exact .launched fork ⟨command, result⟩ room consistent written
      | fg =>
          have other : ¬ ParselineReturn.fg = .bg := by decide
          obtain ⟨full, same⟩ | ⟨room, jobs, added, consistent, written⟩ :=
            addJob_spec ok positive .fg (by simp) (fun _ => idle) cmdline
          · simp only [blocked, if_neg other, if_true, same, checked_ok, untracked]
            rw [waits_of_not_fg (by simp)]
            exact .untracked fork command full
          · have live : jobs.job? s.jobs.nextjid = some ⟨pid, s.jobs.nextjid, .fg, some cmdline⟩ := by simp [written]
            have only : ∀ j other, jobs.job? j = some other → other.pid = pid → j = s.jobs.nextjid := by
              intro j other found same
              by_cases here : j = s.jobs.nextjid
              · exact here
              · rw [written, Function.update_of_ne here] at found
                exact absurd same (unused j other found)
            simp only [blocked, if_neg other, if_true, added, checked_ok, jobFromPid_eq positive live rfl only]
            rw [waits_of_fg live rfl]
            exact .launchedForeground fork ⟨command, result⟩ room consistent written

theorem accepted_of_builtin {builtin : BuiltinState} (command : builtin? cmdline = some builtin) :
    (parseline cmdline).1 ≠ .error ∧ (parseline cmdline).1 ≠ .empty := by
  unfold builtin? at command
  dsimp only at command
  split at command
  · cases command
  · next accepted => exact not_or.mp accepted

/-- At the prompt, with no job in the foreground, `eval` does one of these things. -/
theorem eval_evaluated (ok : s.jobs.Consistent) (idle : s.jobs.fgJob = 0) (new : s.NewProcess env) :
    Evaluated s cmdline env (s.eval cmdline env) := by
  rw [eval_eq]
  cases command : builtin? cmdline with
  | none =>
      exact .quiet _ (quiet_of_other (by simp [command]) (by simp [command]) (by simp [command])
        (by simp [RefusesFile, command]))
  | some builtin =>
      cases builtin with
      | quit => exact .exited rfl (Or.inl command)
      | jobs =>
          by_cases refused : Refused (parseline cmdline).2 env
          · simp only [evalJobs_of_refused refused]
            exact .exited rfl (Or.inr (Or.inl ⟨command, refused⟩))
          · simp only [evalJobs_of_opened refused]
            exact .quiet _ (quiet_of_other (by simp [command]) (by simp [command]) (by simp [command])
              fun refuses => refused refuses.2)
      | bg => exact evalBg_evaluated ok command
      | fg => exact evalFg_evaluated ok idle command
      | none => exact evalFork_evaluated ok idle command (accepted_of_builtin command) new

end Tsh

end SystemsLabs.Shell
