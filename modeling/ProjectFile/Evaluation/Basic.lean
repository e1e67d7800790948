import ProjectFile.Log.Basic
import ProjectFile.Project.Basic

/-!
Evaluation of a project by a build engine, as far as readers know about it: an evaluator gives the
lists of an evaluated project or the reason why there are none. An engine that is not there at all
is told apart from one that tried and failed.
-/

namespace ProjectFile

/-- How a program ended: by itself, or by a signal, which may have left an image of its memory. -/
inductive ExitStatus where
  | code (n : Nat)
  | signal (number : Nat) (dumped : Bool)

namespace ExitStatus

/-- Ended by the signal that cannot be caught. -/
def killed : ExitStatus := .signal 9 false

def isSuccess : ExitStatus → Bool
  | .code 0 => true
  | _ => false

/-- The names of the signals, from the first on; those for real time have none. -/
def signalNames : List Text :=
  ["SIGHUP", "SIGINT", "SIGQUIT", "SIGILL", "SIGTRAP", "SIGABRT", "SIGBUS", "SIGFPE", "SIGKILL",
    "SIGUSR1", "SIGSEGV", "SIGUSR2", "SIGPIPE", "SIGALRM", "SIGTERM", "SIGSTKFLT", "SIGCHLD",
    "SIGCONT", "SIGSTOP", "SIGTSTP", "SIGTTIN", "SIGTTOU", "SIGURG", "SIGXCPU", "SIGXFSZ",
    "SIGVTALRM", "SIGPROF", "SIGWINCH", "SIGIO", "SIGPWR", "SIGSYS"]

def signalName? (number : Nat) : Option Text :=
  if number = 0 then none else signalNames[number - 1]?

def text : ExitStatus → Text
  | .code n => "exit status: " ++ Text.ofNat n
  | .signal number dumped =>
    let name : Text :=
      match signalName? number with
      | some name => " (" ++ name ++ ")"
      | none => []
    let dump : Text := if dumped then " (core dumped)" else []
    "signal: " ++ Text.ofNat number ++ name ++ dump

end ExitStatus

inductive EvaluationError where
  | disabled
  | engineMissing (engine : Path)
  | notStarted (reason : SystemError)
  | failed (status : ExitStatus) (output : Text)
  | unreadable

namespace EvaluationError

/-- Whether there is no engine, rather than one that failed. -/
def isUnavailable : EvaluationError → Bool
  | .disabled => true
  | .engineMissing _ => true
  | _ => false

def message : EvaluationError → Text
  | .disabled => "Evaluation engine is disabled"
  | .engineMissing engine => "Evaluation engine not found: " ++ engine.display
  | .notStarted reason => "Failed to start evaluation engine: " ++ reason.message
  | .failed status output => "Evaluation engine failed (" ++ status.text ++ "): " ++ output
  | .unreadable => "Evaluation engine produced unreadable output: not an object of item lists"

end EvaluationError

/-- Something that evaluates the project at an absolute path. -/
structure Evaluator where
  name : Text
  evaluate : Path → Attempt EvaluationError Evaluated

/-- The evaluator of hosts without an engine. -/
def Evaluator.disabled : Evaluator := ⟨"disabled", fun _ => throw .disabled⟩

@[simp] theorem Evaluator.result_disabled (path : Path) :
    (Evaluator.disabled.evaluate path).result = .error .disabled := rfl

end ProjectFile
