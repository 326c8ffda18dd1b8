import AerCore.Os.Wait

/-!
# `run_impl` and the timeout monitor

`Task::run` and `Task::run_with_cancel` are one function, `run_impl`.  It is
modelled as a machine whose program counter names the next statement with an
effect that another thread can see: an atomic access, a section under the slot
mutex, a channel operation, an OS call, a call of the event callback.  The
sections `*ch.kill.lock() = …` store one value and release the mutex, so each is
one step that waits for the mutex to be free.

The callback may panic.  A panic, a failed `thread::spawn` and every `?` lead to
`leave`, where the locals are dropped in reverse order: the channel ends first,
then the kill guard, which kills and reaps the tree if it is still armed.

## Main definitions

* `RunConfig` — what `run_impl` reads of the task, and whether a handle is given.
* `CancelHandle` — the flags and the kill slot shared by the clones of a handle.
* `MainPc`, `runImplStep` — the thread that called `run_impl`.
* `MonitorPc`, `monitorStep` — the timeout monitor thread.
* `exitReason`, `exitCode`, `runResult` — the verdict.
-/

namespace AerCore

/-! ### Configuration and shared state -/

/-- What `run_impl` reads of the task once it is spawned, and whether it was
called with a cancel handle. -/
structure RunConfig where
  /-- The timeout, in milliseconds. -/
  timeout : Option ℕ
  /-- `with_capture_output(true)`. -/
  captureOutput : Bool
  /-- `run_with_cancel` rather than `run`. -/
  cancel : Bool
  deriving DecidableEq, Repr

/-- The state the clones of a `CancelHandle` share.  Runs are named by `ι`; the
slot holds the kill handle of a run, that is, its name.  No code panics while it
holds the mutex, so it is never poisoned. -/
structure CancelHandle (ι : Type*) where
  /-- Set true the first time `cancel()` is called. -/
  cancelled : Bool
  /-- Set true when a kill is fired on behalf of `cancel()`. -/
  killFired : Bool
  /-- The kill slot. -/
  kill : Option ι
  /-- A `cancel()` call holds the mutex of the slot. -/
  locked : Bool
  deriving DecidableEq

/-- `CancelHandle::new`. -/
def CancelHandle.new {ι : Type*} : CancelHandle ι := ⟨false, false, none, false⟩

/-! ### The verdict -/

/-- The reason reported on `Exited`. -/
def exitReason (wasTimedOut wasCancelled : Bool) : ExitReason :=
  if wasTimedOut then .timedOut else if wasCancelled then .cancelRequested else .naturalExit

/-- The code reported on `Exited`. -/
def exitCode (osCode : ℤ) (wasTimedOut wasCancelled : Bool) : ℤ :=
  if wasTimedOut || wasCancelled then -1 else osCode

/-- The result returned after `Exited`. -/
def runResult (wasTimedOut wasCancelled : Bool) : Except AerError Unit :=
  if wasTimedOut then .error .timedOut
  else if wasCancelled then .error .cancelled
  else .ok ()

/-- How control leaves `run_impl`. -/
inductive Outcome
  | ret (res : Except AerError Unit)
  | unwound
  deriving DecidableEq

/-! ### Program counters -/

/-- Where the thread that called `run_impl` stands. -/
inductive MainPc
  /-- In `PlatformProcess::spawn`. -/
  | spawn (s : SpawnPc)
  /-- Spawned and guarded; before the transition to `Running`. -/
  | toRunning (pid : ℕ)
  /-- In the callback for `Started`. -/
  | inStarted
  /-- Before the kill handle is stored in the slot. -/
  | wire
  /-- Before `cancelled` is loaded. -/
  | loadCancelled
  /-- Before `kill_fired` is loaded. -/
  | loadFired
  /-- In the wiring block's `tree_alive`. -/
  | probe (p : ProbePc)
  /-- Before the wiring block stores `kill_fired`. -/
  | fire
  /-- In the wiring block's `kill_escalating`. -/
  | kill (k : KillPc)
  /-- Before the monitor thread is started, if there is a timeout. -/
  | startMonitor
  /-- Capture: before the chunk channel and its clones are made. -/
  | openChannel
  /-- Capture: before `drop(chunk_tx)`. -/
  | dropTx
  /-- Capture: before the wait thread is started. -/
  | startWait
  /-- Capture: in `chunk_rx.recv()`. -/
  | pump
  /-- Capture: in the callback for a chunk. -/
  | inChunk
  /-- Capture: in `wait_rx.recv()`. -/
  | recvWait
  /-- Capture: in `wait_thread.join()`. -/
  | joinWait (res : Except AerError ℤ)
  /-- No capture: before `wait` is called. -/
  | callWait
  /-- No capture: inside `wait`. -/
  | inWait
  /-- The guard is disarmed; before the slot is cleared. -/
  | clear (code : ℤ)
  /-- Before `cancel_tx.send(())`. -/
  | stopMonitor (code : ℤ)
  /-- Before `timed_out` is loaded. -/
  | loadTimedOut (code : ℤ)
  /-- Before `kill_fired` is loaded for the verdict. -/
  | loadKillFired (code : ℤ) (wasTimedOut : Bool)
  /-- Before the transition to `Exited`. -/
  | toExited (code : ℤ) (wasTimedOut wasCancelled : Bool)
  /-- In the callback for `Exited`. -/
  | inExited (wasTimedOut wasCancelled : Bool)
  /-- Control leaves the body; before the locals are dropped. -/
  | leave (o : Outcome)
  /-- In the kill guard's `kill_escalating`. -/
  | guardKill (k : KillPc) (o : Outcome)
  /-- In the kill guard's `reap_abandoned`. -/
  | guardReap (o : Outcome)
  /-- `run_impl` has returned or finished unwinding. -/
  | finished (o : Outcome)
  deriving DecidableEq

/-- The thread is inside the event callback. -/
def MainPc.inCallback : MainPc → Bool
  | .inStarted | .inChunk | .inExited _ _ => true
  | _ => false

/-- Where the timeout monitor thread stands. -/
inductive MonitorPc
  /-- Not started. -/
  | idle
  /-- In `cancel_rx.recv_timeout`. -/
  | recv
  /-- The deadline fired; in `tree_alive`. -/
  | probe (p : ProbePc)
  /-- Before `timed_out` is stored. -/
  | store
  /-- In `kill_escalating`. -/
  | kill (k : KillPc)
  /-- Ended. -/
  | done
  deriving DecidableEq

/-- The state of one run. -/
structure Run where
  /-- The thread that called `run_impl`. -/
  main : MainPc
  /-- The lifecycle machine. -/
  machine : StateMachine
  /-- The kill guard is armed. -/
  armed : Bool
  /-- The events delivered to the callback, oldest first. -/
  events : List Event
  /-- The timeout monitor thread. -/
  monitor : MonitorPc
  /-- The flag `timed_out`. -/
  timedOut : Bool
  /-- The message of `cancel_tx` is in the monitor's channel. -/
  stopMsg : Bool
  /-- The run thread still holds `cancel_tx`. -/
  stopTx : Bool
  /-- The call of `wait`. -/
  waiter : Waiter
  /-- The drain threads and their channel. -/
  output : Output
  /-- The processes. -/
  tree : Tree
  deriving DecidableEq

/-- A run that is about to spawn. -/
def Run.init (env : Env) : Run where
  main := .spawn (SpawnPc.entry env.platform)
  machine := .new
  armed := false
  events := []
  monitor := .idle
  timedOut := false
  stopMsg := false
  stopTx := true
  waiter := ⟨.idle, none⟩
  output := .none
  tree := .unborn

/-! ### The run thread -/

/-- The steps of the run thread. -/
inductive MainAct
  | spawn (a : SpawnAct)
  | started
  | startedReturns
  | startedPanics
  | wire
  | loadCancelled (b : Bool)
  | loadFired (b : Bool)
  | probe (r : Reply)
  | fire
  | kill (a : KillAct)
  | startMonitor (ok : Bool)
  | openChannel
  | dropTx
  | startWait (ok : Bool)
  | recv
  | recvClosed
  | chunkReturns
  | chunkPanics
  | recvWait
  | joinWait
  | callWait
  | waitReturned
  | clear
  | stopMonitor
  | loadTimedOut (b : Bool)
  | loadKillFired (b : Bool)
  | exited
  | exitedReturns
  | exitedPanics
  | dropLocals
  | guardKill (a : KillAct)
  | guardReap (x : WaitpidReply)
  deriving DecidableEq

/-- The step ends a call of the event callback. -/
def MainAct.endsCallback : MainAct → Bool
  | .startedReturns | .startedPanics | .chunkReturns | .chunkPanics | .exitedReturns
  | .exitedPanics => true
  | _ => false

/-- The error of a wait thread that ended without an answer. -/
def noWaitResult : AerError :=
  .waitFailed (.other "wait thread ended without sending a result")

/-- The run thread goes on from the answer of `wait`: with a code the guard is
disarmed and the slot is cleared, an error is returned with `?`. -/
def Run.afterWait (c : RunConfig) (r : Run) : Except AerError ℤ → Run
  | .ok code => { r with
      armed := false
      main := if c.cancel then .clear code else .stopMonitor code }
  | .error e => { r with main := .leave (.ret (.error e)) }

/-- The statement after the timeout monitor has been started. -/
def RunConfig.afterMonitor (c : RunConfig) : MainPc :=
  if c.captureOutput then .openChannel else .callWait

variable {ι : Type*}

/-- One step of the run thread of run `i`, on the shared handle and its own run. -/
def runImplStep (env : Env) (c : RunConfig) (i : ι) (hd : CancelHandle ι) (r : Run) :
    MainAct → Option (CancelHandle ι × Run)
  | .spawn a =>
      match r.main with
      | .spawn s =>
          (spawnStep env r.tree s a).map fun
            | (t, .more s') => (hd, { r with main := .spawn s', tree := t })
            | (t, .ok pid) => (hd, { r with main := .toRunning pid, armed := true, tree := t })
            -- the guard does not exist yet, so there is nothing to drop
            | (t, .failed e) =>
                (hd, { r with main := .finished (.ret (.error (.spawnFailed e))), tree := t })
      | _ => none
  | .started =>
      match r.main with
      | .toRunning pid =>
          match r.machine.transition .running with
          | .ok m =>
              some (hd, { r with
                main := .inStarted, machine := m, events := r.events ++ [.started pid] })
          | .error e => some (hd, { r with main := .leave (.ret (.error e)) })
      | _ => none
  | .startedReturns =>
      match r.main with
      | .inStarted => some (hd, { r with main := if c.cancel then .wire else .startMonitor })
      | _ => none
  | .startedPanics =>
      match r.main with
      | .inStarted => some (hd, { r with main := .leave .unwound })
      | _ => none
  | .wire =>
      match r.main with
      | .wire =>
          -- `*ch.kill.lock() = Some(..)`: lock, store and unlock in one step
          if hd.locked then none
          else some ({ hd with kill := some i }, { r with main := .loadCancelled })
      | _ => none
  | .loadCancelled b =>
      match r.main with
      | .loadCancelled =>
          -- the three conditions of the `if` are evaluated from left to right
          if hd.cancelled = b then
            some (hd, { r with main := if b then .loadFired else .startMonitor })
          else none
      | _ => none
  | .loadFired b =>
      match r.main with
      | .loadFired =>
          if hd.killFired = b then
            some (hd, { r with
              main := if b then .startMonitor else .probe (ProbePc.entry env.platform) })
          else none
      | _ => none
  | .probe x =>
      match r.main with
      | .probe p =>
          (treeAliveStep env r.tree p x).map fun
            | .inl p' => (hd, { r with main := .probe p' })
            | .inr true => (hd, { r with main := .fire })
            | .inr false => (hd, { r with main := .startMonitor })
      | _ => none
  | .fire =>
      match r.main with
      | .fire =>
          some ({ hd with killFired := true },
            { r with main := .kill (KillPc.entry env.platform) })
      | _ => none
  | .kill a =>
      match r.main with
      | .kill k =>
          (killEscalatingStep env .killGrace r.tree k a).map fun
            -- `let _ =`: the result is dropped
            | (t, .done _) => (hd, { r with main := .startMonitor, tree := t })
            | (t, k') => (hd, { r with main := .kill k', tree := t })
      | _ => none
  | .startMonitor ok =>
      match r.main with
      | .startMonitor =>
          match c.timeout, ok with
          | some _, true => some (hd, { r with main := c.afterMonitor, monitor := .recv })
          -- `thread::spawn` panics when the thread cannot be started
          | some _, false => some (hd, { r with main := .leave .unwound })
          | none, true => some (hd, { r with main := c.afterMonitor })
          | none, false => none
      | _ => none
  | .openChannel =>
      match r.main with
      | .openChannel =>
          some (hd, { r with
            main := .dropTx
            output := { r.output with chunks := ⟨[], true, true, true, true⟩ } })
      | _ => none
  | .dropTx =>
      match r.main with
      | .dropTx =>
          some (hd, { r with
            main := .startWait
            output := { r.output with chunks := { r.output.chunks with txRun := false } } })
      | _ => none
  | .startWait ok =>
      match r.main with
      | .startWait =>
          if ok then
            some (hd, { r with main := .pump, waiter := { r.waiter with pc := .startOut } })
          else
            -- the closure is dropped, and with it the two senders it has captured
            some (hd, { r with
              main := .leave .unwound
              output := { r.output with
                chunks := (r.output.chunks.dropTx .stdout).dropTx .stderr } })
      | _ => none
  | .recv =>
      match r.main, r.output.chunks.queue with
      | .pump, m :: q =>
          some (hd, { r with
            main := .inChunk
            events := r.events ++ [m.event]
            output := { r.output with chunks := { r.output.chunks with queue := q } } })
      | _, _ => none
  | .recvClosed =>
      match r.main, r.output.chunks.queue with
      | .pump, [] =>
          if r.output.chunks.closed then some (hd, { r with main := .recvWait }) else none
      | _, _ => none
  | .chunkReturns =>
      match r.main with
      | .inChunk => some (hd, { r with main := .pump })
      | _ => none
  | .chunkPanics =>
      match r.main with
      | .inChunk => some (hd, { r with main := .leave .unwound })
      | _ => none
  | .recvWait =>
      match r.main, r.waiter.msg, r.waiter.pc with
      | .recvWait, some res, _ =>
          some (hd, { r with main := .joinWait res, waiter := { r.waiter with msg := none } })
      -- the sender went away with the thread, and `recv` fails
      | .recvWait, none, .panicked =>
          some (hd, { r with main := .leave (.ret (.error noWaitResult)) })
      | _, _, _ => none
  | .joinWait =>
      match r.main, r.waiter.pc with
      | .joinWait res, .ended => some (hd, r.afterWait c res)
      | _, _ => none
  | .callWait =>
      match r.main with
      | .callWait =>
          some (hd, { r with main := .inWait, waiter := { r.waiter with pc := .startOut } })
      | _ => none
  | .waitReturned =>
      match r.main, r.waiter.pc with
      | .inWait, .returned res => some (hd, r.afterWait c res)
      -- `wait` runs on this thread, so its panic goes on here
      | .inWait, .panicked => some (hd, { r with main := .leave .unwound })
      | _, _ => none
  | .clear =>
      match r.main with
      | .clear code =>
          if hd.locked then none
          else some ({ hd with kill := none }, { r with main := .stopMonitor code })
      | _ => none
  | .stopMonitor =>
      match r.main with
      | .stopMonitor code => some (hd, { r with main := .loadTimedOut code, stopMsg := true })
      | _ => none
  | .loadTimedOut b =>
      match r.main with
      | .loadTimedOut code =>
          if r.timedOut = b then some (hd, { r with main := .loadKillFired code b }) else none
      | _ => none
  | .loadKillFired b =>
      match r.main with
      | .loadKillFired code wasTimedOut =>
          -- `unwrap_or(false)` when there is no handle
          if (c.cancel && hd.killFired) = b then
            some (hd, { r with main := .toExited code wasTimedOut b })
          else none
      | _ => none
  | .exited =>
      match r.main with
      | .toExited code wasTimedOut wasCancelled =>
          match r.machine.transition .exited with
          | .ok m =>
              some (hd, { r with
                main := .inExited wasTimedOut wasCancelled
                machine := m
                events := r.events ++ [.exited (exitCode code wasTimedOut wasCancelled)
                  (exitReason wasTimedOut wasCancelled)] })
          | .error e => some (hd, { r with main := .leave (.ret (.error e)) })
      | _ => none
  | .exitedReturns =>
      match r.main with
      | .inExited wasTimedOut wasCancelled =>
          some (hd, { r with main := .leave (.ret (runResult wasTimedOut wasCancelled)) })
      | _ => none
  | .exitedPanics =>
      match r.main with
      | .inExited _ _ => some (hd, { r with main := .leave .unwound })
      | _ => none
  | .dropLocals =>
      match r.main with
      | .leave o =>
          -- locals go in reverse order, so the channel ends go before the guard
          some (hd, { r with
            main := if r.armed then .guardKill (KillPc.entry env.platform) o else .finished o
            stopTx := false
            output := { r.output with chunks := { r.output.chunks with rx := false } } })
      | _ => none
  | .guardKill a =>
      match r.main with
      | .guardKill k o =>
          (killEscalatingStep env .zero r.tree k a).map fun
            | (t, .done _) => (hd, { r with main := .guardReap o, tree := t })
            | (t, k') => (hd, { r with main := .guardKill k' o, tree := t })
      | _ => none
  | .guardReap x =>
      match r.main with
      | .guardReap o =>
          (reapAbandoned env r.tree x).map fun t =>
            (hd, { r with main := .finished o, tree := t })
      | _ => none

/-! ### The timeout monitor -/

/-- The steps of the timeout monitor thread. -/
inductive MonitorAct
  /-- `recv_timeout` returns the message of the run thread. -/
  | message
  /-- `recv_timeout` finds the sender dropped. -/
  | disconnected
  /-- `recv_timeout` returns `Timeout`. -/
  | deadline
  | probe (r : Reply)
  | store
  | kill (a : KillAct)
  deriving DecidableEq

/-- One step of the timeout monitor thread. -/
def monitorStep (env : Env) (r : Run) : MonitorAct → Option Run
  | .message =>
      match r.monitor with
      | .recv => if r.stopMsg then some { r with monitor := .done, stopMsg := false } else none
      | _ => none
  | .disconnected =>
      match r.monitor with
      | .recv => if !r.stopMsg && !r.stopTx then some { r with monitor := .done } else none
      | _ => none
  | .deadline =>
      match r.monitor with
      | .recv =>
          -- any moment may be the deadline, as long as the channel is empty and open
          if !r.stopMsg && r.stopTx then
            some { r with monitor := .probe (ProbePc.entry env.platform) }
          else none
      | _ => none
  | .probe x =>
      match r.monitor with
      | .probe p =>
          (treeAliveStep env r.tree p x).map fun
            | .inl p' => { r with monitor := .probe p' }
            | .inr true => { r with monitor := .store }
            | .inr false => { r with monitor := .done }
      | _ => none
  | .store =>
      match r.monitor with
      | .store => some { r with monitor := .kill (KillPc.entry env.platform), timedOut := true }
      | _ => none
  | .kill a =>
      match r.monitor with
      | .kill k =>
          (killEscalatingStep env .killGrace r.tree k a).map fun
            | (t, .done _) => { r with monitor := .done, tree := t }
            | (t, k') => { r with monitor := .kill k', tree := t }
      | _ => none

end AerCore
