/-
# SystemsLabs.Shell.JobList -- the job list of `tsh_helper.c`

A job ID is an `int`, and so may be any integer where it is an argument.  An operation that
calls `abort` ends in an error that names the check that failed.  What the shell sees of the
list is the partial map `job?`, on which every operation acts at one job ID.
-/
import SystemsLabs.Shell.Parseline
import Mathlib.Logic.Function.Basic
import Mathlib.Data.List.GetD
import Mathlib.Order.Bounds.Basic

namespace SystemsLabs.Shell

set_option autoImplicit false

/-- `MAXJOBS` -/
abbrev maxJobs : Nat := 64

/-- `job_state` -/
inductive JobState where
  | undefined
  | fg
  | bg
  | st
deriving DecidableEq, Repr

/-- `struct job_t` -/
structure Job where
  pid : Int
  jid : Int
  state : JobState
  cmdline : Option (List Char)
deriving DecidableEq, Repr

/-- The calls of `abort`. -/
inductive Abort where
  | getJob
  | requireJobExists (func : String) (jid : Int)
  | invalidJobState (jid : Int)
  | anotherForeground (jid foreground : Int)
  | addForeground
  | addInvalidState
  | addInvalidPid
  | listJobsDescriptor
  | assertion
deriving DecidableEq, Repr

/-- `clearjob`, which does not free the command line. -/
def Job.clear (job : Job) : Job := { job with pid := 0, jid := 0, state := .undefined }

def Job.initial : Job := ⟨0, 0, .undefined, none⟩

/-- `job_list` and `nextjid` -/
structure JobList where
  slots : List Job
  nextjid : Int
  size : slots.length = maxJobs

namespace JobList

def initial : JobList := ⟨List.replicate maxJobs .initial, 1, by simp⟩

/-- `job_list[jid - 1]` -/
def slot (l : JobList) (jid : Int) : Job := l.slots.getD (jid - 1).toNat .initial

def setSlot (l : JobList) (jid : Int) (job : Job) : JobList :=
  { l with slots := l.slots.set (jid - 1).toNat job, size := by rw [List.length_set, l.size] }

def setNextjid (l : JobList) (next : Int) : JobList := { l with nextjid := next }

def getJob (l : JobList) (jid : Int) : Except Abort Job :=
  if jid < 1 ∨ jid > maxJobs then .error .getJob else .ok (l.slot jid)

def jobExists (l : JobList) (jid : Int) : Bool :=
  if jid < 1 ∨ jid > maxJobs then false else (l.slot jid).state ≠ .undefined

/-- The loop of `maxjid`, from `jid` downwards. -/
def maxjidFrom (l : JobList) : Nat → Int
  | 0 => 0
  | jid + 1 => if l.jobExists (jid + 1) then jid + 1 else l.maxjidFrom jid

def maxjid (l : JobList) : Int := l.maxjidFrom maxJobs

/-- The first job ID whose slot is as looked for, or 0. -/
def firstJid (l : JobList) (found : Job → Bool) : Int :=
  match l.slots.findIdx? found with
  | some index => index + 1
  | none => 0

def fgJob (l : JobList) : Int := l.firstJid (·.state = .fg)

def jobFromPid (l : JobList) (pid : Int) : Int :=
  if pid < 1 then 0 else l.firstJid (fun job => job.state ≠ .undefined && job.pid = pid)

def requireJobExists (l : JobList) (func : String) (jid : Int) : Except Abort Unit :=
  if l.jobExists jid then .ok () else .error (.requireJobExists func jid)

def requireValidState (l : JobList) (jid : Int) (state : JobState) : Except Abort Unit :=
  if state = .undefined then .error (.invalidJobState jid)
  else if state = .fg ∧ l.fgJob ≠ 0 then .error (.anotherForeground jid l.fgJob)
  else .ok ()

/-- The command line is not NULL, and the memory for it is not refused. -/
def addJob (l : JobList) (pid : Int) (state : JobState) (cmdline : List Char) : Except Abort (Int × JobList) :=
  if ¬ ((state = .fg ∧ l.fgJob = 0) ∨ state = .bg ∨ state = .st) then
    if state = .fg then .error .addForeground else .error .addInvalidState
  else if pid ≤ 0 then .error .addInvalidPid
  else if ¬ l.nextjid > 0 then .error .assertion
  else if l.nextjid > maxJobs then .ok (0, l)
  else do
    let job ← l.getJob l.nextjid
    if job.state ≠ .undefined then .error .assertion
    else
      let added := (l.setSlot l.nextjid ⟨pid, l.nextjid, state, some cmdline⟩).setNextjid (l.nextjid + 1)
      if ¬ added.nextjid > 0 then .error .assertion else .ok (l.nextjid, added)

def deleteJob (l : JobList) (jid : Int) : Except Abort (Bool × JobList) :=
  if !l.jobExists jid then .ok (false, l)
  else do
    let job ← l.getJob jid
    let cleared := l.setSlot jid job.clear
    let l := cleared.setNextjid (cleared.maxjid + 1)
    if ¬ l.nextjid > 0 then .error .assertion else .ok (true, l)

def jobGetState (l : JobList) (jid : Int) : Except Abort JobState := do
  l.requireJobExists "job_get_state" jid
  let job ← l.getJob jid
  return job.state

def jobSetState (l : JobList) (jid : Int) (state : JobState) : Except Abort JobList := do
  l.requireJobExists "job_set_state" jid
  l.requireValidState jid state
  let job ← l.getJob jid
  return l.setSlot jid { job with state := state }

def jobGetPid (l : JobList) (jid : Int) : Except Abort Int := do
  l.requireJobExists "job_get_pid" jid
  let job ← l.getJob jid
  return job.pid

def jobGetCmdline (l : JobList) (jid : Int) : Except Abort (Option (List Char)) := do
  l.requireJobExists "job_get_cmdline" jid
  let job ← l.getJob jid
  return job.cmdline

/-- The lines that `list_jobs` writes. -/
def listJobs (l : JobList) (outputFd : Int) : Except Abort (List (Int × Int × String × Option (List Char))) :=
  if outputFd < 0 then .error .listJobsDescriptor
  else .ok ((l.slots.filter (·.state ≠ .undefined)).map fun job =>
    let status := match job.state with
      | .fg => "Foreground "
      | .bg => "Running    "
      | .st => "Stopped    "
      | .undefined => ""
    (job.jid, job.pid, status, job.cmdline))

/-! ## The list as a partial map -/

/-- The live job with a job ID. -/
def job? (l : JobList) (jid : Int) : Option Job := if l.jobExists jid then some (l.slot jid) else none

/-- The job IDs of the live jobs. -/
def liveJids (l : JobList) : Set Int := {jid | (l.job? jid).isSome}

variable {l : JobList} {jid : Int} {job : Job}

@[simp] theorem setNextjid_nextjid (l : JobList) (next : Int) : (l.setNextjid next).nextjid = next := rfl

@[simp] theorem job?_setNextjid (l : JobList) (next : Int) : (l.setNextjid next).job? = l.job? := rfl

@[simp] theorem liveJids_setNextjid (l : JobList) (next : Int) : (l.setNextjid next).liveJids = l.liveJids := rfl

theorem jobExists_iff : l.jobExists jid = true ↔ (1 ≤ jid ∧ jid ≤ maxJobs) ∧ (l.slot jid).state ≠ .undefined := by
  unfold jobExists
  split
  case isTrue out =>
    simp only [Bool.false_eq_true, false_iff]
    omega
  case isFalse inside =>
    rw [decide_eq_true_eq]
    exact ⟨fun live => ⟨by omega, live⟩, fun live => live.2⟩

theorem job?_eq_some : l.job? jid = some job ↔ l.jobExists jid = true ∧ l.slot jid = job := by
  unfold job?
  split
  case isTrue live => simp [live]
  case isFalse dead => simp [dead]

theorem jobExists_eq : l.jobExists jid = (l.job? jid).isSome := by
  unfold job?
  split
  case isTrue live => simp [live]
  case isFalse dead => simpa using dead

theorem job?_range (live : l.job? jid = some job) : 1 ≤ jid ∧ jid ≤ maxJobs :=
  (jobExists_iff.mp (job?_eq_some.mp live).1).1

theorem job?_state (live : l.job? jid = some job) : job.state ≠ .undefined := by
  obtain ⟨inUse, rfl⟩ := job?_eq_some.mp live
  exact (jobExists_iff.mp inUse).2

theorem getJob_of_range (inside : 1 ≤ jid ∧ jid ≤ maxJobs) : l.getJob jid = .ok (l.slot jid) := by
  unfold getJob
  rw [if_neg (by omega)]

theorem getJob_of_job? (live : l.job? jid = some job) : l.getJob jid = .ok job := by
  rw [getJob_of_range (job?_range live), (job?_eq_some.mp live).2]

theorem slot_setSlot (inside : 1 ≤ jid ∧ jid ≤ maxJobs) {j : Int} (other : 1 ≤ j) :
    (l.setSlot jid job).slot j = if j = jid then job else l.slot j := by
  have size := l.size
  unfold slot setSlot
  by_cases same : j = jid
  · subst same
    rw [if_pos rfl]
    simp only [List.getD_eq_getElem?_getD]
    rw [List.getElem?_set_self (by omega), Option.getD_some]
  · rw [if_neg same]
    simp only [List.getD_eq_getElem?_getD]
    rw [List.getElem?_set_ne (by omega)]

/-- An entry that is written is the only one that changes. -/
theorem job?_setSlot (l : JobList) (job : Job) (inside : 1 ≤ jid ∧ jid ≤ maxJobs) :
    (l.setSlot jid job).job? =
      Function.update l.job? jid (if job.state = .undefined then none else some job) := by
  funext j
  by_cases range : 1 ≤ j ∧ j ≤ maxJobs
  · have written : (l.setSlot jid job).slot j = if j = jid then job else l.slot j := slot_setSlot inside range.1
    have known : (l.setSlot jid job).jobExists j = true ↔ ((l.setSlot jid job).slot j).state ≠ .undefined := by
      rw [jobExists_iff]
      exact and_iff_right range
    by_cases same : j = jid
    · subst same
      rw [if_pos rfl] at written
      rw [Function.update_self, job?, written]
      by_cases empty : job.state = .undefined
      · rw [if_pos empty, if_neg (by rw [known, written]; exact not_not_intro empty)]
      · rw [if_neg empty, if_pos (by rw [known, written]; exact empty)]
    · rw [if_neg same] at written
      have before : l.jobExists j = true ↔ (l.slot j).state ≠ .undefined := by
        rw [jobExists_iff]
        exact and_iff_right range
      have inUse : (l.setSlot jid job).jobExists j = l.jobExists j := by
        rw [Bool.eq_iff_iff, known, written, before]
      rw [Function.update_of_ne same, job?, job?, written, inUse]
  · have different : j ≠ jid := by intro same; subst same; exact range inside
    have out : ∀ l : JobList, l.job? j = none := by
      intro l
      rw [job?, if_neg]
      rw [jobExists_iff]
      exact fun live => range live.1
    rw [Function.update_of_ne different, out, out]

/-! ## The scans -/

theorem firstJid_spec (found : Job → Bool) (only : ∀ job, found job = true → job.state ≠ .undefined) :
    (l.firstJid found = 0 ∧ ∀ jid job, l.job? jid = some job → found job = false) ∨
      ∃ job, l.job? (l.firstJid found) = some job ∧ found job = true := by
  have size := l.size
  unfold firstJid
  cases first : l.slots.findIdx? found with
  | none =>
      refine Or.inl ⟨rfl, ?_⟩
      intro jid job live
      have range := job?_range live
      obtain ⟨_, rfl⟩ := job?_eq_some.mp live
      have inside : (jid - 1).toNat < l.slots.length := by omega
      rw [slot, List.getD_eq_getElem _ _ inside]
      exact List.findIdx?_eq_none_iff.mp first _ (List.getElem_mem inside)
  | some index =>
      obtain ⟨inside, here, _⟩ := List.findIdx?_eq_some_iff_getElem.mp first
      have isSlot : l.slot (index + 1) = l.slots[index] := by
        rw [slot, show ((index : Int) + 1 - 1).toNat = index by omega, List.getD_eq_getElem _ _ inside]
      refine Or.inr ⟨l.slots[index], ?_, here⟩
      rw [job?_eq_some, jobExists_iff, isSlot]
      exact ⟨⟨by dsimp only; omega, only _ here⟩, rfl⟩

/-- `fg_job` returns the foreground job, or 0. -/
theorem fgJob_spec : (l.fgJob = 0 ∧ ∀ jid job, l.job? jid = some job → job.state ≠ .fg) ∨
    ∃ job, l.job? l.fgJob = some job ∧ job.state = .fg := by
  have scan := firstJid_spec (l := l) (fun job => decide (job.state = .fg)) (by intro job is; simp_all)
  simpa [fgJob] using scan

/-- `job_from_pid` returns a live job with that pid, or 0. -/
theorem jobFromPid_spec (pid : Int) (positive : 1 ≤ pid) :
    (l.jobFromPid pid = 0 ∧ ∀ jid job, l.job? jid = some job → job.pid ≠ pid) ∨
      ∃ job, l.job? (l.jobFromPid pid) = some job ∧ job.pid = pid := by
  have scan := firstJid_spec (l := l) (fun job => job.state ≠ .undefined && decide (job.pid = pid))
    (by intro job is; simp_all)
  rw [jobFromPid, if_neg (by omega)]
  obtain ⟨zero, none⟩ | ⟨job, live, is⟩ := scan
  · refine Or.inl ⟨zero, ?_⟩
    intro jid job live same
    have notFound := none jid job live
    simp [job?_state live, same] at notFound
  · exact Or.inr ⟨job, live, by simp_all⟩

theorem job?_jobFromPid {pid : Int} (found : l.jobFromPid pid ≠ 0) :
    ∃ job, l.job? (l.jobFromPid pid) = some job ∧ job.pid = pid := by
  by_cases positive : 1 ≤ pid
  · obtain ⟨zero, _⟩ | known := jobFromPid_spec (l := l) pid positive
    · exact absurd zero found
    · exact known
  · rw [jobFromPid, if_pos (by omega)] at found
    exact absurd rfl found

theorem jobFromPid_eq {pid : Int} (positive : 1 ≤ pid) (live : l.job? jid = some job) (same : job.pid = pid)
    (only : ∀ j other, l.job? j = some other → other.pid = pid → j = jid) : l.jobFromPid pid = jid := by
  obtain ⟨_, none⟩ | ⟨other, found, pid_eq⟩ := jobFromPid_spec (l := l) pid positive
  · exact absurd same (none jid job live)
  · exact only _ other found pid_eq

@[simp] theorem job?_zero : l.job? 0 = none := by
  rw [job?, if_neg]
  rw [jobExists_iff]
  omega

theorem maxjidFrom_spec (n : Nat) : IsGreatest (insert 0 {jid | jid ∈ l.liveJids ∧ jid ≤ n}) (l.maxjidFrom n) := by
  induction n with
  | zero =>
      refine ⟨Or.inl rfl, ?_⟩
      rintro jid (rfl | ⟨live, le⟩)
      · exact Int.le_refl _
      · simpa [maxjidFrom] using le
  | succ n ih =>
      rw [maxjidFrom]
      by_cases live : l.jobExists (n + 1)
      · rw [if_pos live]
        have top : (n : Int) + 1 ∈ l.liveJids := by rwa [jobExists_eq] at live
        refine ⟨Or.inr ⟨top, by omega⟩, ?_⟩
        rintro jid (rfl | ⟨_, le⟩) <;> omega
      · rw [if_neg live]
        refine ⟨?_, ?_⟩
        · obtain zero | ⟨here, le⟩ := ih.1
          · exact Or.inl zero
          · exact Or.inr ⟨here, by omega⟩
        · rintro jid (rfl | ⟨here, le⟩)
          · exact ih.2 (Or.inl rfl)
          · have below : jid ≠ n + 1 := by
              rintro rfl
              exact live (by rw [jobExists_eq]; exact here)
            exact ih.2 (Or.inr ⟨here, by omega⟩)

theorem maxjid_isGreatest : IsGreatest (insert 0 l.liveJids) l.maxjid := by
  have scan := maxjidFrom_spec (l := l) maxJobs
  have all : {jid | jid ∈ l.liveJids ∧ jid ≤ (maxJobs : Nat)} = l.liveJids := by
    ext jid
    apply and_iff_left_of_imp
    intro live
    obtain ⟨job, live⟩ := Option.isSome_iff_exists.mp live
    exact (job?_range live).2
  rwa [all] at scan

/-! ## The operations -/

theorem requireJobExists_of_job? (live : l.job? jid = some job) (func : String) :
    l.requireJobExists func jid = .ok () := by
  rw [requireJobExists, if_pos (job?_eq_some.mp live).1]

theorem requireJobExists_of_none (dead : l.job? jid = none) (func : String) :
    l.requireJobExists func jid = .error (.requireJobExists func jid) := by
  rw [requireJobExists, if_neg]
  rw [jobExists_eq, dead]
  exact Bool.false_ne_true

theorem jobGetState_eq (live : l.job? jid = some job) : l.jobGetState jid = .ok job.state := by
  simp [jobGetState, requireJobExists_of_job? live, getJob_of_job? live, bind, Except.bind, pure, Except.pure]

theorem jobGetPid_eq (live : l.job? jid = some job) : l.jobGetPid jid = .ok job.pid := by
  simp [jobGetPid, requireJobExists_of_job? live, getJob_of_job? live, bind, Except.bind, pure, Except.pure]

theorem jobGetCmdline_eq (live : l.job? jid = some job) : l.jobGetCmdline jid = .ok job.cmdline := by
  simp [jobGetCmdline, requireJobExists_of_job? live, getJob_of_job? live, bind, Except.bind, pure, Except.pure]

theorem listJobs_of_nonneg (l : JobList) (fd : Int) (valid : 0 ≤ fd) : ∃ lines, l.listJobs fd = .ok lines := by
  rw [listJobs, if_neg (by omega)]
  exact ⟨_, rfl⟩

theorem jobSetState_of_none (dead : l.job? jid = none) (state : JobState) :
    l.jobSetState jid state = .error (.requireJobExists "job_set_state" jid) := by
  simp [jobSetState, requireJobExists_of_none dead, bind, Except.bind]

/-- A state that is allowed is set in one job. -/
theorem jobSetState_spec (live : l.job? jid = some job) (state : JobState) (defined : state ≠ .undefined)
    (alone : state = .fg → l.fgJob = 0) :
    ∃ l', l.jobSetState jid state = .ok l' ∧ l'.nextjid = l.nextjid ∧
      l'.job? = Function.update l.job? jid (some { job with state := state }) := by
  have valid : l.requireValidState jid state = .ok () := by
    rw [requireValidState, if_neg defined, if_neg]
    rintro ⟨fg, taken⟩
    exact taken (alone fg)
  refine ⟨l.setSlot jid { job with state := state }, ?_, rfl, ?_⟩
  · simp [jobSetState, requireJobExists_of_job? live, valid, getJob_of_job? live, bind, Except.bind, pure, Except.pure]
  · rw [l.job?_setSlot _ (job?_range live), if_neg defined]

/-! ## What the list keeps -/

/-- `nextjid` is one more than the largest live job ID, each job knows its job ID, and one job
at most is in the foreground. -/
structure Consistent (l : JobList) : Prop where
  next : IsGreatest (insert 0 l.liveJids) (l.nextjid - 1)
  named : ∀ jid job, l.job? jid = some job → job.jid = jid ∧ 0 < job.pid
  foreground : ∀ i j job job', l.job? i = some job → l.job? j = some job' →
    job.state = .fg → job'.state = .fg → i = j

theorem job?_initial : initial.job? jid = none := by
  rw [job?, if_neg]
  rw [jobExists_iff]
  rintro ⟨_, live⟩
  apply live
  rw [slot, initial, List.getD_eq_getElem?_getD, List.getElem?_replicate]
  split <;> rfl

theorem consistent_initial : initial.Consistent := by
  constructor
  · refine ⟨Or.inl rfl, ?_⟩
    rintro jid (rfl | live)
    · exact Int.le_refl _
    · simp [liveJids, job?_initial] at live
  · intro jid job live
    simp [job?_initial] at live
  · intro i j job job' live
    simp [job?_initial] at live

/-- The next job ID is in use by no job, nor is any after it. -/
theorem Consistent.free (ok : l.Consistent) (later : l.nextjid ≤ jid) : l.job? jid = none := by
  rw [← Option.not_isSome_iff_eq_none]
  intro live
  have := ok.next.2 (Or.inr live)
  omega

theorem Consistent.one_le_nextjid (ok : l.Consistent) : 1 ≤ l.nextjid := by
  have := ok.next.2 (Or.inl rfl)
  omega

theorem fgJob_eq_zero (none : ∀ jid job, l.job? jid = some job → job.state ≠ .fg) : l.fgJob = 0 := by
  obtain ⟨zero, _⟩ | ⟨job, live, fg⟩ := l.fgJob_spec
  · exact zero
  · exact absurd fg (none _ _ live)

theorem ne_fg_of_fgJob (zero : l.fgJob = 0) (live : l.job? jid = some job) : job.state ≠ .fg := by
  obtain ⟨_, none⟩ | ⟨found, isSlot, _⟩ := l.fgJob_spec
  · exact none jid job live
  · simp [zero] at isSlot

/-- A job that is written keeps the list consistent, where it is the only one in the foreground. -/
theorem Consistent.update {l' : JobList} {jobs : Option Job} (ok : l.Consistent)
    (written : l'.job? = Function.update l.job? jid jobs)
    (next : IsGreatest (insert 0 l'.liveJids) (l'.nextjid - 1))
    (named : ∀ job, jobs = some job → job.jid = jid ∧ 0 < job.pid)
    (alone : ∀ job, jobs = some job → job.state = .fg → ∀ j other, j ≠ jid → l.job? j = some other → other.state ≠ .fg) :
    l'.Consistent := by
  have isLive : ∀ j job, l'.job? j = some job → (j = jid ∧ jobs = some job) ∨ (j ≠ jid ∧ l.job? j = some job) := by
    intro j job live
    rw [written] at live
    by_cases same : j = jid
    · subst same
      rw [Function.update_self] at live
      exact Or.inl ⟨rfl, live⟩
    · rw [Function.update_of_ne same] at live
      exact Or.inr ⟨same, live⟩
  refine ⟨next, ?_, ?_⟩
  · intro j job live
    obtain ⟨rfl, new⟩ | ⟨_, old⟩ := isLive j job live
    · exact named job new
    · exact ok.named j job old
  · intro i j job job' first second fg fg'
    obtain ⟨rfl, new⟩ | ⟨other, old⟩ := isLive i job first <;>
      obtain ⟨rfl, new'⟩ | ⟨other', old'⟩ := isLive j job' second
    · rfl
    · exact absurd fg' (alone job new fg j job' other' old')
    · exact absurd fg (alone job' new' fg' i job other old)
    · exact ok.foreground i j job job' old old' fg fg'

theorem liveJids_update {l' : JobList} (written : l'.job? = Function.update l.job? jid (some job)) :
    l'.liveJids = insert jid l.liveJids := by
  ext j
  simp only [liveJids, Set.mem_insert_iff, Set.mem_ofPred_eq, written]
  by_cases same : j = jid
  · subst same; simp
  · simp [same]

/-- `add_job` takes the next job ID, if there is one. -/
theorem addJob_spec (ok : l.Consistent) {pid : Int} (positive : 0 < pid) (state : JobState)
    (defined : state ≠ .undefined) (alone : state = .fg → l.fgJob = 0) (cmdline : List Char) :
    (maxJobs < l.nextjid ∧ l.addJob pid state cmdline = .ok (0, l)) ∨
      l.nextjid ≤ maxJobs ∧ ∃ l', l.addJob pid state cmdline = .ok (l.nextjid, l') ∧ l'.Consistent ∧
        l'.job? = Function.update l.job? l.nextjid (some ⟨pid, l.nextjid, state, some cmdline⟩) := by
  have allowed : ¬ ¬ ((state = .fg ∧ l.fgJob = 0) ∨ state = .bg ∨ state = .st) := by
    cases state <;> simp_all
  have first := ok.one_le_nextjid
  unfold addJob
  rw [if_neg allowed, if_neg (by omega), if_neg (by omega)]
  by_cases full : l.nextjid > maxJobs
  · exact Or.inl ⟨full, by rw [if_pos full]⟩
  have inside : 1 ≤ l.nextjid ∧ l.nextjid ≤ maxJobs := by omega
  have unused : (l.slot l.nextjid).state = .undefined := by
    have dead := ok.free (Int.le_refl l.nextjid)
    rw [job?] at dead
    split at dead
    · cases dead
    case isFalse none =>
      rw [jobExists_iff] at none
      exact Classical.not_not.mp (fun live => none ⟨inside, live⟩)
  have written := l.job?_setSlot ⟨pid, l.nextjid, state, some cmdline⟩ inside
  rw [if_neg defined] at written
  refine Or.inr ⟨inside.2,
    (l.setSlot l.nextjid ⟨pid, l.nextjid, state, some cmdline⟩).setNextjid (l.nextjid + 1), ?_, ?_, written⟩
  · rw [if_neg full]
    simp [getJob_of_range inside, unused, bind, Except.bind]
    omega
  · refine ok.update written ?_ ?_ ?_
    · rw [liveJids_setNextjid, liveJids_update written, Set.insert_comm]
      have top := ok.next.insert l.nextjid
      rw [Int.max_eq_left (by omega)] at top
      rwa [setNextjid_nextjid, Int.add_sub_cancel]
    · rintro job ⟨⟩
      exact ⟨rfl, positive⟩
    · rintro job ⟨⟩ fg j other _ live
      exact ne_fg_of_fgJob (alone fg) live

theorem deleteJob_of_none (dead : l.job? jid = none) : l.deleteJob jid = .ok (false, l) := by
  rw [deleteJob, if_pos]
  simp [jobExists_eq, dead]

/-- `delete_job` removes one job. -/
theorem deleteJob_spec (ok : l.Consistent) (live : l.job? jid = some job) :
    ∃ l', l.deleteJob jid = .ok (true, l') ∧ l'.Consistent ∧ l'.job? = Function.update l.job? jid none := by
  have written := l.job?_setSlot job.clear (job?_range live)
  rw [if_pos (by rfl)] at written
  have top := (l.setSlot jid job.clear).maxjid_isGreatest
  have positive := top.2 (Or.inl rfl)
  refine ⟨(l.setSlot jid job.clear).setNextjid ((l.setSlot jid job.clear).maxjid + 1), ?_, ?_, written⟩
  · rw [deleteJob, if_neg (by simp [jobExists_eq, live])]
    simp [getJob_of_job? live, bind, Except.bind]
    omega
  · refine ok.update written ?_ ?_ ?_
    · simpa using top
    · rintro job ⟨⟩
    · rintro job ⟨⟩

/-- The list stays consistent where a state is set that is allowed. -/
theorem Consistent.set {l' : JobList} (ok : l.Consistent) (live : l.job? jid = some job) {state : JobState}
    (next : l'.nextjid = l.nextjid) (alone : state = .fg → l.fgJob = 0)
    (written : l'.job? = Function.update l.job? jid (some { job with state := state })) : l'.Consistent := by
  apply ok.update written
  · rw [liveJids_update written, next, Set.insert_eq_of_mem (a := jid) (by simp [liveJids, live])]
    exact ok.next
  · rintro changed ⟨⟩
    exact ok.named jid job live
  · rintro job ⟨⟩ fg j other _ live
    exact ne_fg_of_fgJob (alone fg) live

end JobList

end SystemsLabs.Shell
