/-
# SystemsLabs.Shell.Eval -- `eval` and the signal handlers of `tsh.c`

The shell process is a state machine.  Its steps are the command lines that `eval` is called
with and the signals that reach it, at the prompt or inside `sigsuspend`: `eval` blocks them
everywhere else.  What the system answers to the calls of `eval` comes with the command line.
-/
import SystemsLabs.Shell.JobList
import Mathlib.Data.Finset.Insert
import Mathlib.Data.Finset.Lattice.Basic

namespace SystemsLabs.Shell

set_option autoImplicit false

/-- Signals by number. -/
abbrev SigSet : Type := Finset Nat

abbrev sigint : Nat := 2

abbrev sigchld : Nat := 17

abbrev sigtstp : Nat := 20

/-- `mask_all` of `eval` -/
def maskAll : SigSet := {sigchld, sigint, sigtstp}

def isSpace (c : Char) : Bool := c ∈ [' ', '\t', '\n', '\x0b', '\x0c', '\r']

abbrev longMin : Int := -9223372036854775808

abbrev longMax : Int := 9223372036854775807

/-- `strtol` stays within a `long`, and its result is cut to an `int`. -/
def atoi (text : List Char) : Int :=
  let text := text.dropWhile isSpace
  let digits := match text with
    | '-' :: digits => digits
    | '+' :: digits => digits
    | digits => digits
  let value := (digits.takeWhile Char.isDigit).foldl (fun value c => 10 * value + (c.toNat - 48)) 0
  let long : Int := if text.head? = some '-' then -(value : Int) else value
  (if long < longMin then longMin else if long > longMax then longMax else long).bmod 4294967296

/-- The job ID and the process that the argument of `bg` and `fg` names; there is none where
it is answered with a message. -/
def argumentJob (jobs : JobList) (arg : List Char) : Except Abort (Option (Int × Int)) :=
  match arg with
  | '%' :: number =>
      let jid := atoi number
      if !jobs.jobExists jid then .ok none
      else do
        let pid ← jobs.jobGetPid jid
        return some (jid, pid)
  | arg =>
      if !(arg.headD '\x00').isDigit then .ok none
      else
        let pid := atoi arg
        if pid = 0 then .ok none else .ok (some (jobs.jobFromPid pid, pid))

/-- The result of `open`. -/
inductive OpenResult where
  | opened (fd : Nat)
  | failed (errno : Nat)
deriving DecidableEq, Repr

abbrev eacces : Nat := 13

/-- `getout_fd`, which opens the file for reading and writing, or else only for writing; there
is no descriptor where it calls `exit`. -/
def getoutFd (rdwr wronly : OpenResult) : Option Nat :=
  match rdwr with
  | .opened fd => some fd
  | .failed errno =>
      if errno = eacces then
        match wronly with
        | .opened fd => some fd
        | .failed _ => none
      else none

/-- What the system answers during a call of `eval`: the child of `fork`, if there is one,
whether `killpg` succeeds (the process group is there once its leader has called `setpgid`), and
the results of the two calls of `open` in `getout_fd`. -/
structure Answers where
  fork : Option Int
  killpg : Bool
  rdwr : OpenResult
  wronly : OpenResult
deriving DecidableEq, Repr

/-- Where the shell process is: in the read loop, in `sigsuspend` for the job `jid` of the
process `pid`, or at its end. -/
inductive Control where
  | prompt
  | suspended (jid pid : Int) (prevOne : SigSet)
  | exited
  | aborted (cause : Abort)
deriving DecidableEq

/-- The shell process.  Its children are those that it has not waited for. -/
structure Tsh where
  jobs : JobList
  children : List Int
  mask : SigSet
  control : Control

namespace Tsh

def initial (mask : SigSet) : Tsh := ⟨.initial, [], mask, .prompt⟩

/-- `eval` restores a mask and returns. -/
def returns (s : Tsh) (mask : SigSet) : Tsh := { s with mask := mask, control := .prompt }

def exits (s : Tsh) : Tsh := { s with control := .exited }

def aborts (s : Tsh) (cause : Abort) : Tsh := { s with control := .aborted cause }

/-- Go on after a call that may abort. -/
def checked {α : Type} (s : Tsh) (result : Except Abort α) (next : α → Tsh) : Tsh :=
  match result with
  | .error cause => s.aborts cause
  | .ok a => next a

/-- The loop of `eval` that waits for a foreground job, at its condition. -/
def waits (s : Tsh) (jid pid : Int) (prevOne : SigSet) : Tsh :=
  if s.jobs.jobExists jid then
    s.checked (s.jobs.jobGetState jid) fun state =>
      if state = .fg then { s with control := .suspended jid pid prevOne } else s.returns prevOne
  else s.returns prevOne

/-! ## `eval` -/

def evalJobs (s : Tsh) (token : CmdlineTokens) (env : Answers) (prevOne : SigSet) : Tsh :=
  match token.outfile with
  | some _ =>
      match getoutFd env.rdwr env.wronly with
      | none => s.exits
      | some fd => s.checked (s.jobs.listJobs fd) fun _ => s.returns prevOne
  | none => s.checked (s.jobs.listJobs 1) fun _ => s.returns prevOne

/-- After a message about the argument the mask becomes `prev`, which no call has set. -/
def evalBg (s : Tsh) (token : CmdlineTokens) (env : Answers) (prevOne : SigSet) : Tsh :=
  if token.argv.length = 1 then s.returns prevOne
  else
    s.checked (argumentJob s.jobs (token.argv.getD 1 [])) fun
      | none => s.returns ∅
      | some (jid, _) =>
          s.checked (s.jobs.jobSetState jid .bg) fun jobs =>
            if !env.killpg then exits { s with jobs := jobs }
            else checked { s with jobs := jobs } (jobs.jobGetCmdline jid) fun _ =>
              returns { s with jobs := jobs } prevOne

def evalFg (s : Tsh) (token : CmdlineTokens) (env : Answers) (prevOne : SigSet) : Tsh :=
  if token.argv.length = 1 then s.returns prevOne
  else
    s.checked (argumentJob s.jobs (token.argv.getD 1 [])) fun
      | none => s.returns ∅
      | some (jid, pid) =>
          s.checked (s.jobs.jobSetState jid .fg) fun jobs =>
            if !env.killpg then exits { s with jobs := jobs }
            else waits { s with jobs := jobs } jid pid prevOne

/-- The shell's side of `Fork` and what follows it. -/
def evalFork (s : Tsh) (result : ParselineReturn) (cmdline : List Char) (env : Answers) (prevOne : SigSet) : Tsh :=
  match env.fork with
  | none => s.exits
  | some pid =>
      let s := { s with children := pid :: s.children }
      if result = .bg then
        s.checked (s.jobs.addJob pid .bg cmdline) fun added => returns { s with jobs := added.2 } prevOne
      else if result = .fg then
        s.checked (s.jobs.addJob pid .fg cmdline) fun added =>
          waits { s with jobs := added.2 } (added.2.jobFromPid pid) pid prevOne
      else s.returns prevOne

def eval (s : Tsh) (cmdline : List Char) (env : Answers) : Tsh :=
  let prevOne := s.mask
  let s := { s with mask := s.mask ∪ maskAll }
  let (result, token) := parseline cmdline
  if result = .error ∨ result = .empty then s.returns prevOne
  else
    match token.builtin with
    | .quit => s.exits
    | .jobs => s.evalJobs token env prevOne
    | .bg => s.evalBg token env prevOne
    | .fg => s.evalFg token env prevOne
    | .none => s.evalFork result cmdline env prevOne

end Tsh

/-! ## The handlers -/

/-- What `waitpid` reports of a child. -/
inductive Change where
  | exited
  | signaled
  | stopped
deriving DecidableEq, Repr

/-- A pass of the loop of `sigchld_handler`. -/
def handleChange (l : JobList) : Int × Change → Except Abort JobList
  | (pid, .exited) => do
      let deleted ← l.deleteJob (l.jobFromPid pid)
      return deleted.2
  | (pid, .stopped) => l.jobSetState (l.jobFromPid pid) .st
  | (pid, .signaled) => do
      let deleted ← l.deleteJob (l.jobFromPid pid)
      return deleted.2

def sigchldHandler (l : JobList) (changes : List (Int × Change)) : Except Abort JobList :=
  changes.foldlM handleChange l

/-- The children after `waitpid` has returned one of them. -/
def waitpid (children : List Int) : Int × Change → Option (List Int)
  | (pid, change) =>
      if pid ∈ children then some (if change = .stopped then children else children.erase pid) else none

namespace Tsh

/-- `sigint_handler` and `sigtstp_handler` send their signal to the process group of the
foreground job. -/
def forwards (s : Tsh) (ownGroup killpg : Bool) : Tsh :=
  if s.jobs.fgJob > 0 then
    s.checked (s.jobs.jobGetPid s.jobs.fgJob) fun _ => if ownGroup && !killpg then s.exits else s
  else s

def sigintHandler (s : Tsh) (ownGroup killpg : Bool) : Tsh := s.forwards ownGroup killpg

def sigtstpHandler (s : Tsh) (ownGroup killpg : Bool) : Tsh := s.forwards ownGroup killpg

/-- `sigsuspend` returns after a handler. -/
def wakes (s : Tsh) : Tsh :=
  match s.control with
  | .suspended jid pid prevOne => s.waits jid pid prevOne
  | _ => s

/-- Whether a signal is delivered: `sigsuspend` unblocks all of them. -/
def receives (s : Tsh) (sig : Nat) : Bool :=
  match s.control with
  | .prompt => sig ∉ s.mask
  | .suspended _ _ _ => true
  | .exited => false
  | .aborted _ => false

end Tsh

inductive Event where
  | command (cmdline : List Char) (env : Answers)
  | sigchld (changes : List (Int × Change))
  | sigint (ownGroup killpg : Bool)
  | sigtstp (ownGroup killpg : Bool)
deriving DecidableEq, Repr

def Event.isCommand : Event → Bool
  | .command _ _ => true
  | _ => false

/-- A signal from the keyboard reaches the process group it is sent to. -/
def Event.sends : Event → Bool
  | .sigint _ killpg => killpg
  | .sigtstp _ killpg => killpg
  | _ => true

/-- A new process has a positive pid that no other child has. -/
def Answers.Fresh (env : Answers) (children : List Int) : Prop :=
  ∀ pid, env.fork = some pid → 0 < pid ∧ pid ∉ children

instance (env : Answers) (children : List Int) : Decidable (env.Fresh children) :=
  match same : env.fork with
  | none => isTrue (by intro pid is; rw [same] at is; cases is)
  | some pid =>
      decidable_of_iff (0 < pid ∧ pid ∉ children)
        ⟨by intro fresh pid' is; rw [same] at is; cases is; exact fresh, fun fresh => fresh pid same⟩

namespace Tsh

/-- A step of the shell, if it can take that step. -/
def step (s : Tsh) : Event → Option Tsh
  | .command cmdline env =>
      if s.control = .prompt ∧ env.Fresh s.children then some (s.eval cmdline env) else none
  | .sigchld changes =>
      if s.receives Shell.sigchld then
        (changes.foldlM waitpid s.children).map fun children =>
          s.checked (sigchldHandler s.jobs changes) fun jobs =>
            wakes { s with jobs := jobs, children := children }
      else none
  | .sigint ownGroup killpg =>
      if s.receives Shell.sigint then some (s.sigintHandler ownGroup killpg).wakes else none
  | .sigtstp ownGroup killpg =>
      if s.receives Shell.sigtstp then some (s.sigtstpHandler ownGroup killpg).wakes else none

/-- The steps of the shell process, as a relation. -/
def Step (s : Tsh) (e : Event) (s' : Tsh) : Prop := s.step e = some s'

/-- The shell process is still there. -/
def Running (s : Tsh) : Prop := s.control = .prompt ∨ ∃ jid pid prevOne, s.control = .suspended jid pid prevOne

end Tsh

end SystemsLabs.Shell
