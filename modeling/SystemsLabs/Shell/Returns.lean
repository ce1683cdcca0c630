/-
# SystemsLabs.Shell.Returns -- who returns from `eval`, and with which signal mask

`eval` blocks the signals and puts the mask back by hand wherever it returns.  After a message
about the argument of `bg` or `fg` it puts back `prev`, which is empty, so the mask survives
only where it was empty before (`eval_restores`).

The child of `Fork` is to end in `execve` or `exit`.  It redirects its input last, and where the
input file cannot be opened it prints a message and then looks at `errno`: it returns into the read
loop unless that says, still, that the file does not exist (`forked_ends`).
-/
import SystemsLabs.Shell.Commands
import SystemsLabs.Theory.Runs

namespace SystemsLabs.Shell

set_option autoImplicit false

open Theory.Runs

/-! ## The child of `Fork` -/

/-- Whether `dup2`, `close` and the second `dup2` of a redirection succeed. -/
structure Redirection where
  dup2 : Bool
  close : Bool
  again : Bool
deriving DecidableEq, Repr

/-- After the first failure the child calls `exit`. -/
def Redirection.done (r : Redirection) : Bool := r.dup2 && r.close && r.again

/-- What the system answers to the calls of the child. -/
structure ChildAnswers where
  /-- the two calls of `open` in `getout_fd` -/
  rdwr : OpenResult
  wronly : OpenResult
  output : Redirection
  /-- `open` of the input file -/
  infile : OpenResult
  /-- `errno` once the message about the input file is printed: a `write` that fails or is
  interrupted has set it -/
  printed : Nat
  input : Redirection
  execve : Bool
deriving DecidableEq, Repr

/-- How the child leaves `eval`; where it returns, it is a shell of its own. -/
inductive ChildEnd where
  | execed
  | exited
  | returned (shell : Tsh)

abbrev enoent : Nat := 2

/-- Whether the child gets past the redirection of its output. -/
def redirectsOutput (token : CmdlineTokens) (env : ChildAnswers) : Bool :=
  match token.outfile with
  | none => true
  | some _ => (getoutFd env.rdwr env.wronly).isSome && env.output.done

def execs (env : ChildAnswers) : ChildEnd := if env.execve then .execed else .exited

namespace Tsh

/-- The child's side of `Fork`, which has a copy of the shell. -/
def evalChild (s : Tsh) (token : CmdlineTokens) (env : ChildAnswers) (prevOne : SigSet) : ChildEnd :=
  if !redirectsOutput token env then .exited
  else
    match token.infile with
    | none => execs env
    | some _ =>
        match env.infile with
        | .failed _ => if env.printed = enoent then .exited else .returned (s.returns prevOne)
        | .opened _ => if env.input.done then execs env else .exited

/-- What becomes of the process that `eval` creates, if it creates one. -/
def forked (s : Tsh) (cmdline : List Char) (env : ChildAnswers) : Option ChildEnd :=
  if builtin? cmdline = some .none then some (s.blocked.evalChild (parseline cmdline).2 env s.mask) else none

end Tsh

/-- The child is gone as a shell. -/
def ChildEnd.Ends : ChildEnd → Prop
  | .execed => True
  | .exited => True
  | .returned _ => False

/-- The child has its output, the input file cannot be opened, and after the message `errno` does
not say that there is no such file. -/
def InputRefused (token : CmdlineTokens) (env : ChildAnswers) : Prop :=
  redirectsOutput token env = true ∧ token.infile.isSome = true ∧ (∃ errno, env.infile = .failed errno) ∧
    env.printed ≠ enoent

theorem execs_ends (env : ChildAnswers) : (execs env).Ends := by
  unfold execs
  split <;> trivial

/-- **The child ends** in `execve` or `exit`, unless its input file is refused. -/
theorem forked_ends {s : Tsh} {cmdline : List Char} {env : ChildAnswers} {ending : ChildEnd}
    (forked : s.forked cmdline env = some ending) :
    ending.Ends ↔ ¬ InputRefused (parseline cmdline).2 env := by
  unfold Tsh.forked at forked
  split at forked
  · obtain rfl := Option.some.inj forked
    unfold Tsh.evalChild InputRefused
    cases output : redirectsOutput (parseline cmdline).2 env with
    | false => exact iff_of_true trivial (by simp)
    | true =>
        cases infile : (parseline cmdline).2.infile with
        | none => exact iff_of_true (execs_ends env) (by simp)
        | some name =>
            cases opened : env.infile with
            | opened fd =>
                refine iff_of_true ?_ (by simp)
                dsimp only
                split
                · trivial
                · split
                  · exact execs_ends env
                  · trivial
            | failed errno =>
                by_cases missing : env.printed = enoent
                · exact iff_of_true (by simp [missing, ChildEnd.Ends]) (by simp [missing])
                · exact iff_of_false (by simp [missing, ChildEnd.Ends]) (by simp [missing])
  · cases forked

/-- The answers where everything succeeds but the opening of the input file, and the message leaves
`errno` as it is. -/
def deniedInput (errno : Nat) : ChildAnswers :=
  ⟨.opened 3, .opened 3, ⟨true, true, true⟩, .failed errno, errno, ⟨true, true, true⟩, true⟩

theorem forked_ends_missing : ∃ ending,
    (Tsh.initial ∅).forked "cat < in".toList (deniedInput enoent) = some ending ∧ ending.Ends := by
  obtain ⟨ending, forked⟩ : ∃ ending, (Tsh.initial ∅).forked "cat < in".toList (deniedInput enoent) = some ending := by
    exact ⟨_, if_pos (by decide +kernel)⟩
  refine ⟨ending, forked, (forked_ends forked).mpr ?_⟩
  rintro ⟨-, -, -, other⟩
  exact other rfl

/-- Without permission to read the file, there are two shells. -/
theorem forked_ends_counterexample : ¬ ∀ (s : Tsh) (cmdline : List Char) (env : ChildAnswers) (ending : ChildEnd),
    s.forked cmdline env = some ending → ending.Ends := by
  intro claim
  have command : builtin? "cat < in".toList = some .none := by
    decide +kernel
  have infile : (parseline "cat < in".toList).2.infile = some "in".toList := by
    decide +kernel
  have outfile : (parseline "cat < in".toList).2.outfile = none := by
    decide +kernel
  have ends := claim (.initial ∅) "cat < in".toList (deniedInput eacces) _ (if_pos command)
  have output : redirectsOutput (parseline "cat < in".toList).2 (deniedInput eacces) = true := by
    rw [redirectsOutput, outfile]
  unfold Tsh.evalChild at ends
  rw [output, infile] at ends
  exact ends

/-! ## The signal mask -/

/-- `bg` or `fg` with an argument that is answered with a message. -/
def AnswersMessage (l : JobList) (cmdline : List Char) : Prop :=
  (builtin? cmdline = some .bg ∨ builtin? cmdline = some .fg) ∧ (parseline cmdline).2.argv.length ≠ 1 ∧
    argumentJob l ((parseline cmdline).2.argv.getD 1 []) = .ok none

namespace Tsh

/-- The mask is `m` at the prompt, and will be where `eval` still waits. -/
structure Restores (m : SigSet) (s : Tsh) : Prop where
  prompt : s.control = .prompt → s.mask = m
  suspended : ∀ jid pid prevOne, s.control = .suspended jid pid prevOne → prevOne = m

section Restores

variable {s s₁ s₂ : Tsh} {m : SigSet} {jid pid : Int} {cmdline : List Char} {env : Answers} {es : List Event}
  {e : Event} {token : CmdlineTokens} {result : ParselineReturn}

theorem restores_returns (s : Tsh) (m : SigSet) : Restores m (s.returns m) := ⟨fun _ => rfl, nofun⟩

theorem restores_exits (s : Tsh) (m : SigSet) : Restores m s.exits := ⟨nofun, nofun⟩

theorem restores_aborts (s : Tsh) (m : SigSet) (cause : Abort) : Restores m (s.aborts cause) := ⟨nofun, nofun⟩

theorem restores_checked {α : Type} {next : α → Tsh} (s : Tsh) (answer : Except Abort α)
    (all : ∀ a, Restores m (next a)) : Restores m (s.checked answer next) := by
  cases answer with
  | error cause => exact restores_aborts s m cause
  | ok a => exact all a

theorem restores_waits (s : Tsh) (jid pid : Int) (m : SigSet) : Restores m (s.waits jid pid m) := by
  obtain same | same := s.waits_cases jid pid m
  · rw [same]
    refine ⟨nofun, fun jid' pid' prevOne suspended => ?_⟩
    cases suspended
    rfl
  · rw [same]
    exact restores_returns s m

theorem restores_evalJobs (s : Tsh) (token : CmdlineTokens) (env : Answers) (m : SigSet) :
    Restores m (s.evalJobs token env m) := by
  by_cases refused : Refused token env
  · rw [evalJobs_of_refused refused]
    exact restores_exits s m
  · rw [evalJobs_of_opened refused]
    exact restores_returns s m

/-- An argument that is not answered with a message names a job. -/
theorem restores_argument {next : Option (Int × Int) → Tsh} (s : Tsh) {arg : List Char}
    (other : argumentJob s.jobs arg ≠ .ok none) (all : ∀ named, Restores m (next (some named))) :
    Restores m (s.checked (argumentJob s.jobs arg) next) := by
  cases answer : argumentJob s.jobs arg with
  | error cause => exact restores_aborts s m cause
  | ok named =>
      cases named with
      | none => exact absurd answer other
      | some named => exact all named

theorem restores_evalBg (s : Tsh) (env : Answers) (m : SigSet)
    (other : token.argv.length = 1 ∨ argumentJob s.jobs (token.argv.getD 1 []) ≠ .ok none) :
    Restores m (s.evalBg token env m) := by
  unfold evalBg
  split
  · exact restores_returns s m
  · next bare =>
    refine restores_argument s (other.resolve_left bare) fun ⟨jid, pid⟩ => restores_checked s _ fun jobs => ?_
    split
    · exact restores_exits _ m
    · exact restores_checked _ _ fun _ => restores_returns _ m

theorem restores_evalFg (s : Tsh) (env : Answers) (m : SigSet)
    (other : token.argv.length = 1 ∨ argumentJob s.jobs (token.argv.getD 1 []) ≠ .ok none) :
    Restores m (s.evalFg token env m) := by
  unfold evalFg
  split
  · exact restores_returns s m
  · next bare =>
    refine restores_argument s (other.resolve_left bare) fun ⟨jid, pid⟩ => restores_checked s _ fun jobs => ?_
    split
    · exact restores_exits _ m
    · exact restores_waits _ _ _ m

theorem restores_evalFork (s : Tsh) (result : ParselineReturn) (cmdline : List Char) (env : Answers) (m : SigSet) :
    Restores m (s.evalFork result cmdline env m) := by
  unfold evalFork
  cases env.fork with
  | none => exact restores_exits s m
  | some pid =>
      dsimp only
      split
      · exact restores_checked _ _ fun _ => restores_returns _ m
      split
      · exact restores_checked _ _ fun _ => restores_waits _ _ _ m
      · exact restores_returns _ m

/-- **A command** restores the mask, unless it is answered with a message. -/
theorem eval_restoring (other : ¬ AnswersMessage s.jobs cmdline) : Restores s.mask (s.eval cmdline env) := by
  have argument : builtin? cmdline = some .bg ∨ builtin? cmdline = some .fg →
      (parseline cmdline).2.argv.length = 1 ∨
        argumentJob s.jobs ((parseline cmdline).2.argv.getD 1 []) ≠ .ok none := by
    intro command
    by_contra message
    obtain ⟨several, answered⟩ := not_or.mp message
    exact other ⟨command, several, not_not.mp answered⟩
  rw [eval_eq]
  cases command : builtin? cmdline with
  | none => exact restores_returns _ _
  | some builtin =>
      cases builtin with
      | quit => exact restores_exits _ _
      | jobs => exact restores_evalJobs _ _ _ _
      | bg => exact restores_evalBg _ env _ (argument (Or.inl command))
      | fg => exact restores_evalFg _ env _ (argument (Or.inr command))
      | none => exact restores_evalFork _ _ _ _ _

/-- After a message the mask is empty. -/
theorem eval_message (message : AnswersMessage s.jobs cmdline) : s.eval cmdline env = s.returns ∅ := by
  obtain ⟨command, several, answered⟩ := message
  have jobs : s.blocked.jobs = s.jobs := rfl
  rw [eval_eq]
  obtain command | command := command
  · simp only [command, evalBg, if_neg several, jobs, answered]
    rfl
  · simp only [command, evalFg, if_neg several, jobs, answered]
    rfl

theorem Restores.wakes (restores : Restores m s) : Restores m s.wakes := by
  unfold Tsh.wakes
  split
  · next jid pid prevOne control =>
    obtain rfl := restores.suspended jid pid prevOne control
    exact restores_waits _ _ _ _
  · exact restores

theorem Restores.forwards (restores : Restores m s) (ownGroup killpg : Bool) :
    Restores m (s.forwards ownGroup killpg) := by
  unfold Tsh.forwards
  split
  · refine restores_checked _ _ fun _ => ?_
    split
    · exact restores_exits s m
    · exact restores
  · exact restores

/-- **A signal** does not change what is restored. -/
theorem Restores.signal (restores : Restores m s) (signal : e.isCommand = false) (step : s.Step e s₁) :
    Restores m s₁ := by
  unfold Step Tsh.step at step
  cases e with
  | command cmdline env => cases signal
  | sigchld changes =>
      dsimp only at step
      split at step
      · obtain ⟨children, -, rfl⟩ := Option.map_eq_some_iff.mp step
        refine restores_checked _ _ fun jobs => Restores.wakes ?_
        exact ⟨restores.prompt, restores.suspended⟩
      · cases step
  | sigint ownGroup killpg =>
      dsimp only at step
      split at step
      · obtain rfl := Option.some.inj step
        exact (restores.forwards ownGroup killpg).wakes
      · cases step
  | sigtstp ownGroup killpg =>
      dsimp only at step
      split at step
      · obtain rfl := Option.some.inj step
        exact (restores.forwards ownGroup killpg).wakes
      · cases step

theorem Restores.run (restores : Restores m s) (signals : ∀ e ∈ es, e.isCommand = false) (run : Run Step s es s₁) :
    Restores m s₁ := by
  induction run with
  | nil => exact restores
  | cons first _ ih =>
      have next := restores.signal (signals _ (List.mem_cons_self ..)) first
      exact ih next fun e member => signals e (List.mem_cons_of_mem _ member)

/-- **`eval` restores the mask** by the time that it has returned, whatever signals it waits for,
if the mask was empty or the command is not answered with a message about its argument. -/
theorem eval_restores (command : s.Step (.command cmdline env) s₁) (signals : ∀ e ∈ es, e.isCommand = false)
    (run : Run Step s₁ es s₂) (returned : s₂.control = .prompt) :
    s₂.mask = s.mask ↔ s.mask = ∅ ∨ ¬ AnswersMessage s.jobs cmdline := by
  unfold Step step at command
  dsimp only at command
  split at command
  · obtain rfl := Option.some.inj command
    by_cases message : AnswersMessage s.jobs cmdline
    · rw [eval_message message] at run
      have emptied := ((restores_returns s ∅).run signals run).prompt returned
      rw [emptied, or_iff_left (not_not.mpr message)]
      exact eq_comm
    · exact iff_of_true (((eval_restoring message).run signals run).prompt returned) (Or.inr message)
  · cases command

end Restores

/-- A system where every call succeeds. -/
def willing : Answers := ⟨some 7, true, .opened 3, .opened 3⟩

theorem willing_fresh : willing.Fresh [] := by decide

theorem step_command {s : Tsh} (prompt : s.control = .prompt) (none : s.children = []) (cmdline : List Char) :
    s.Step (.command cmdline willing) (s.eval cmdline willing) :=
  if_pos ⟨prompt, none ▸ willing_fresh⟩

theorem eval_restores_bare : ((initial {10}).eval "bg".toList willing).mask = {10} := by
  have command : builtin? "bg".toList = some .bg := by
    decide +kernel
  have bare : (parseline "bg".toList).2.argv.length = 1 := by
    decide +kernel
  have returned : ((initial {10}).eval "bg".toList willing).control = .prompt := by
    rw [eval_eq, command]
    dsimp only
    rw [evalBg, if_pos bare]
    rfl
  exact (eval_restores (step_command rfl rfl "bg".toList) (by simp) (Run.nil _) returned).mpr
    (Or.inr fun message => message.2.1 bare)

/-- A bad argument unblocks a signal that was blocked before. -/
theorem eval_restores_counterexample : ¬ ∀ (s s₁ s₂ : Tsh) (cmdline : List Char) (env : Answers) (es : List Event),
    s.Step (.command cmdline env) s₁ → (∀ e ∈ es, e.isCommand = false) → Run Step s₁ es s₂ →
    s₂.control = .prompt → s₂.mask = s.mask := by
  intro claim
  have message : AnswersMessage (initial {10}).jobs "bg x".toList :=
    ⟨Or.inl (by decide +kernel), by decide +kernel, by rfl⟩
  have emptied : (initial {10}).eval "bg x".toList willing = (initial {10}).returns ∅ := eval_message message
  have restored := claim (initial {10}) _ _ "bg x".toList willing [] (step_command rfl rfl _) (by simp) (Run.nil _)
    (by rw [emptied]; rfl)
  rw [emptied] at restored
  exact absurd restored (by decide)

end Tsh

end SystemsLabs.Shell
