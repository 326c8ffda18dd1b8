import AerCore.Os.Kill

/-!
# Spawning the root

`OsProcess::spawn` of the two backends, one OS call to a step.  On Unix
`Command::spawn` returns only after `setsid` and `exec`, so the whole of it is one
step and the root is the leader of its group from its first one.  On Windows the
child runs from the moment `Command::spawn` returns and joins the job only with
`AssignProcessToJobObject`; when that fails the child is killed and waited for.

## Main definitions

* `SpawnPc`, `spawnStep` — `spawn`.
-/

namespace AerCore

/-- Where a call of `spawn` stands. -/
inductive SpawnPc
  /-- Windows: before `CreateJobObjectW`. -/
  | createJob
  /-- Windows: before `SetInformationJobObject` sets kill-on-close. -/
  | setInfo
  /-- Before `Command::spawn`. -/
  | command
  /-- Windows: before `AssignProcessToJobObject`. -/
  | assign (pid : ℕ)
  /-- Windows: the assignment failed; before `child.kill()`. -/
  | killChild (e : IoError)
  /-- Windows: the assignment failed; before `child.wait()`. -/
  | waitChild (e : IoError)
  deriving DecidableEq, Repr

/-- The first call of `spawn`. -/
def SpawnPc.entry : Platform → SpawnPc
  | .unix => .command
  | .windows => .createJob

/-- The steps of `spawn`, each with the answer it gets. -/
inductive SpawnAct
  | createJob (r : Except IoError Unit)
  | setInfo (r : Except IoError Unit)
  | command (r : Except IoError ℕ)
  | assign (r : Except IoError Unit)
  | killChild (r : Reply)
  | waitChild (r : Except IoError Unit)
  deriving DecidableEq

/-- What a step of `spawn` leads to. -/
inductive SpawnNext
  | more (s : SpawnPc)
  | ok (pid : ℕ)
  | failed (e : IoError)
  deriving DecidableEq, Repr

/-- One step of `spawn`. -/
def spawnStep (env : Env) (t : Tree) : SpawnPc → SpawnAct → Option (Tree × SpawnNext)
  | .createJob, .createJob r =>
      some (t, match r with
        | .ok () => .more .setInfo
        | .error e => .failed e)
  | .setInfo, .setInfo r =>
      some (t, match r with
        | .ok () => .more .command
        | .error e => .failed e)
  | .command, .command r =>
      some (match r with
        | .error e => (t, .failed e)
        | .ok pid =>
            match env.platform with
            -- `spawn` returns after the `exec`, so `setsid` has been called
            | .unix => (Tree.spawned true, .ok pid)
            -- the root runs already, and is not in the job yet
            | .windows => (Tree.spawned false, .more (.assign pid)))
  | .assign pid, .assign r =>
      some (match r with
        | .ok () => ({ t with leader := { t.leader with inGroup := true } }, .ok pid)
        | .error e => (t, .more (.killChild e)))
  | .killChild e, .killChild r =>
      if r.fits true (!env.permitted) then
        some (if r = .present then t.killRoot terminatedStatus else t, .more (.waitChild e))
      else none
  | .waitChild e, .waitChild r =>
      match r with
      | .ok () => t.reapRoot.map fun t' => (t', .failed e)
      | .error _ => some (t, .failed e)
  | _, _ => none

end AerCore
