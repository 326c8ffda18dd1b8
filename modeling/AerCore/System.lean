import AerCore.Lts
import AerCore.RunImpl
import Mathlib.Logic.Function.Basic

/-!
# Runs, cancelling threads and processes together

The whole system around one `CancelHandle`: any number of runs, each with its
run thread, monitor, wait thread and drain threads; any number of threads that
call `cancel()`, among them the event callback of a run; and the processes of
every tree.  A run that was started without a handle is one whose configuration
says so.

A label names the thread that moves and the answers it gets, so the system is a
step function of labels in the sense of `Lts`.

## Main definitions

* `Caller`, `cancelStep` — `CancelHandle::cancel`.
* `World`, `Label`, `step` — the system.
* `World.init` — no run has spawned, and the handle is fresh.
* `Reaches env cfg tr w` — the schedule `tr` leads to `w`.
-/

namespace AerCore

/-! ### `CancelHandle::cancel` -/

/-- A thread that may call `cancel()`: any thread of the program, or the event
callback of a run, on its run thread. -/
inductive CallerId (ι : Type*)
  | thread (n : ℕ)
  | callback (i : ι)
  deriving DecidableEq

/-- Where a call of `cancel()` stands; the name is that of the run whose kill
handle was found in the slot. -/
inductive Caller (ι : Type*)
  /-- Not in `cancel()`. -/
  | idle
  /-- The swap returned `false`; before the slot mutex is taken. -/
  | lock
  /-- In `tree_alive`, holding the mutex. -/
  | probe (i : ι) (p : ProbePc)
  /-- Before `kill_fired` is stored. -/
  | fire (i : ι)
  /-- In `kill_escalating`, holding the mutex. -/
  | kill (i : ι) (k : KillPc)
  /-- Before the mutex is released. -/
  | unlock
  deriving DecidableEq

/-- The steps of `cancel()`. -/
inductive CancelAct (ι : Type*)
  /-- `cancelled.swap(true)` returns the given value. -/
  | swap (was : Bool)
  | lock
  | probe (i : ι) (r : Reply)
  | fire (i : ι)
  | kill (i : ι) (a : KillAct)
  | unlock
  deriving DecidableEq

/-- The call holds the slot mutex. -/
def Caller.holdsLock {ι : Type*} : Caller ι → Bool
  | .idle | .lock => false
  | .probe _ _ | .fire _ | .kill _ _ | .unlock => true

/-- The run whose tree the call has in its hands. -/
def Caller.target {ι : Type*} : Caller ι → Option ι
  | .idle | .lock | .unlock => none
  | .probe i _ | .fire i | .kill i _ => some i

/-! ### The system -/

/-- The whole state. -/
structure World (ι : Type*) where
  /-- The handle the runs share. -/
  handle : CancelHandle ι
  /-- The threads that may call `cancel()` on it. -/
  callers : CallerId ι → Caller ι
  /-- The runs. -/
  runs : ι → Run

/-- A step: who moves, and what it is answered. -/
inductive Label (ι : Type*)
  /-- The thread that called `run_impl`. -/
  | main (i : ι) (a : MainAct)
  /-- The timeout monitor of a run. -/
  | monitor (i : ι) (a : MonitorAct)
  /-- `wait`, on the run thread or on the wait thread. -/
  | wait (i : ι) (a : WaitAct)
  /-- A drain thread of a run. -/
  | drain (i : ι) (s : Stream) (a : DrainAct)
  /-- A thread in `cancel()`. -/
  | cancel (k : CallerId ι) (a : CancelAct ι)
  /-- A process of the tree of a run. -/
  | proc (i : ι) (a : ProcAct)
  deriving DecidableEq

variable {ι : Type*} [DecidableEq ι]

/-- The world with another state of run `i`. -/
def World.setRun (w : World ι) (i : ι) (r : Run) : World ι :=
  { w with runs := Function.update w.runs i r }

/-- The world with another state of caller `k`. -/
def World.setCaller (w : World ι) (k : CallerId ι) (c : Caller ι) : World ι :=
  { w with callers := Function.update w.callers k c }

/-- The world with another tree of run `i`. -/
def World.setTree (w : World ι) (i : ι) (t : Tree) : World ι :=
  w.setRun i { w.runs i with tree := t }

/-- A callback may call `cancel()` only while it runs. -/
def World.mayCall (w : World ι) : CallerId ι → Bool
  | .thread _ => true
  | .callback i => (w.runs i).main.inCallback

/-- One step of a call of `cancel()`. -/
def cancelStep (env : Env) (w : World ι) (k : CallerId ι) : CancelAct ι → Option (World ι)
  | .swap was =>
      match w.callers k with
      | .idle =>
          if w.mayCall k = true ∧ w.handle.cancelled = was then
            some (World.setCaller { w with handle := { w.handle with cancelled := true } } k
              -- only the first caller goes on
              (if was then .idle else .lock))
          else none
      | _ => none
  | .lock =>
      match w.callers k with
      | .lock =>
          if w.handle.locked then none
          else
            -- the slot is read under the mutex and cannot change before `unlock`
            some (World.setCaller { w with handle := { w.handle with locked := true } } k
              (match w.handle.kill with
                | none => .unlock
                | some i => .probe i (ProbePc.entry env.platform)))
      | _ => none
  | .probe i x =>
      match w.callers k with
      | .probe j p =>
          if i = j then
            (treeAliveStep env (w.runs i).tree p x).map fun
              | .inl p' => w.setCaller k (.probe i p')
              | .inr true => w.setCaller k (.fire i)
              | .inr false => w.setCaller k .unlock
          else none
      | _ => none
  | .fire i =>
      match w.callers k with
      | .fire j =>
          if i = j then
            some (World.setCaller { w with handle := { w.handle with killFired := true } } k
              (.kill i (KillPc.entry env.platform)))
          else none
      | _ => none
  | .kill i a =>
      match w.callers k with
      | .kill j p =>
          if i = j then
            (killEscalatingStep env .killGrace (w.runs i).tree p a).map fun
              | (t, .done _) => (w.setTree i t).setCaller k .unlock
              | (t, p') => (w.setTree i t).setCaller k (.kill i p')
          else none
      | _ => none
  | .unlock =>
      match w.callers k with
      | .unlock =>
          some (World.setCaller { w with handle := { w.handle with locked := false } } k .idle)
      | _ => none

/-- One step of the system.  A call of the event callback ends only when the
`cancel()` it made, if any, has returned. -/
def step (env : Env) (cfg : ι → RunConfig) (w : World ι) : Label ι → Option (World ι)
  | .main i a =>
      if a.endsCallback = true ∧ w.callers (.callback i) ≠ .idle then none
      else
        (runImplStep env (cfg i) i w.handle (w.runs i) a).map fun (hd, r) =>
          World.setRun { w with handle := hd } i r
  | .monitor i a => (monitorStep env (w.runs i) a).map fun r => w.setRun i r
  | .wait i a =>
      (waitStep env (cfg i).captureOutput (w.runs i).tree (w.runs i).output (w.runs i).waiter
        a).map fun (t, o, x) => w.setRun i { w.runs i with tree := t, output := o, waiter := x }
  | .drain i s a =>
      (drainStep (cfg i).captureOutput s (w.runs i).tree (w.runs i).output a).map fun (t, o) =>
        w.setRun i { w.runs i with tree := t, output := o }
  | .cancel k a => cancelStep env w k a
  | .proc i a => (procStep env (w.runs i).tree a).map fun t => w.setTree i t

/-- No run has spawned, nobody has called `cancel()` and the handle is fresh. -/
def World.init (ι : Type*) (env : Env) : World ι where
  handle := .new
  callers := fun _ => .idle
  runs := fun _ => Run.init env

/-- The schedule `tr` leads from the initial world to `w`. -/
def Reaches (env : Env) (cfg : ι → RunConfig) (tr : List (Label ι)) (w : World ι) : Prop :=
  Lts.exec (step env cfg) (World.init ι env) tr = some w

end AerCore
