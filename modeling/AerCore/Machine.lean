import Mathlib.Data.Int.Notation
import Mathlib.Tactic.Common

/-!
# Events, errors and the state machine

The vocabulary of `event.rs`, `lib.rs` and `machine.rs`: what a run emits, how
it fails, and the three-state machine that guards the order of its two
lifecycle events.

## Main definitions

* `ExitReason`, `Event` — what the caller's callback receives.
* `IoError`, `AerError` — every way a run can fail.
* `State`, `StateMachine.transition` — the legal edges, and the error for all
  others.

## Main results

* `transition_eq_ok_iff` — the legal edges are exactly `Created → Running` and
  `Running → Exited`.
-/

namespace AerCore

/-! ### Events -/

/-- Why a process execution ended. -/
inductive ExitReason
  /-- The process exited on its own before any timeout or cancellation. -/
  | naturalExit
  /-- The configured timeout elapsed and the process was killed. -/
  | timedOut
  /-- An explicit cancel request killed the process. -/
  | cancelRequested
  deriving DecidableEq, Repr

/-- The two captured streams of a child. -/
inductive Stream
  | stdout
  | stderr
  deriving DecidableEq, Repr

/-- Events emitted during a single task execution. -/
inductive Event
  | started (pid : ℕ)
  | exited (code : ℤ) (reason : ExitReason)
  | stdoutChunk (seq : ℕ) (bytes : List UInt8)
  | stderrChunk (seq : ℕ) (bytes : List UInt8)
  deriving DecidableEq, Repr

/-- The event is a chunk of captured output. -/
def Event.isChunk : Event → Bool
  | .stdoutChunk _ _ | .stderrChunk _ _ => true
  | .started _ | .exited _ _ => false

/-! ### Errors -/

/-- The two ways the code obtains an `io::Error`: from `errno`, or from a text of
its own. -/
inductive IoError
  | os (errno : ℤ)
  | other (message : String)
  deriving DecidableEq, Repr

/-- States a task can occupy. -/
inductive State
  | created
  | running
  | exited
  deriving DecidableEq, Repr

/-- All errors produced by the library. -/
inductive AerError
  /-- The OS refused to spawn the process. -/
  | spawnFailed (e : IoError)
  /-- The OS returned an error while waiting for the process to exit. -/
  | waitFailed (e : IoError)
  /-- A state transition was attempted that is not permitted by the machine. -/
  | invalidStateTransition (source target : State)
  /-- The process was killed because the configured timeout elapsed. -/
  | timedOut
  /-- The kill attempt itself failed. -/
  | killFailed (e : IoError)
  /-- The process was killed by an explicit cancel request. -/
  | cancelled
  deriving DecidableEq, Repr

/-! ### The state machine -/

/-- Enforces legal state transitions. -/
structure StateMachine where
  /-- The state the task is in. -/
  state : State
  deriving DecidableEq, Repr

/-- `StateMachine::new`. -/
def StateMachine.new : StateMachine := ⟨.created⟩

/-- Attempts to move to `next`; legal edges are `Created → Running` and
`Running → Exited`. -/
def StateMachine.transition (m : StateMachine) (next : State) : Except AerError StateMachine :=
  match m.state, next with
  | .created, .running | .running, .exited => .ok ⟨next⟩
  | _, _ => .error (.invalidStateTransition m.state next)

/-- The machine accepts exactly the two edges of the lifecycle. -/
theorem transition_eq_ok_iff {m m' : StateMachine} {next : State} :
    m.transition next = .ok m' ↔ m'.state = next ∧
      ((m.state = .created ∧ next = .running) ∨ (m.state = .running ∧ next = .exited)) := by
  obtain ⟨s⟩ := m
  obtain ⟨s'⟩ := m'
  cases s <;> cases next <;> simp [StateMachine.transition, eq_comm]

end AerCore
