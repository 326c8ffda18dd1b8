import AerCore.Counted
import AerCore.Deadline

/-!
# The job object and its handle

On Windows a run holds its job object through an `Arc<JobHandle>`: `spawn` makes it,
`run_impl` and its guard, `wait`, the timeout monitor, the kill slot and every call of
`kill_escalating` own a clone, and the drop of the last one calls `CloseHandle`, which
terminates what is left in the job.  The steps of a run are those of `step`; beside them
each step makes, clones, moves and drops references as its statement does.

`AerCore.Closing` says what follows for the handle.

## Main definitions

* `JobOwner` — the variables that own a clone.
* `jobOps` — what a step does with the references to the job of a run.
* `JobWorld`, `jobStep` — the system with its job objects.
* `Run.owns` — which references the threads of a run own, by their places.

* `Owned` — the owners are the threads and the slot that stand where they own a clone.

## Main results

* `onWindows_of_reaches` — the calls of the threads are those of Windows.
* `owned_of_step` — a step brings the owners from one place to the next.
* `allowed_of_step` — a clone is made from a variable that owns a reference.
-/

namespace AerCore

variable {ι : Type*}

/-! ### References -/

/-- The variables that own a reference to the job of a run. -/
inductive JobOwner (ι : Type*)
  /-- `job`, in `spawn`. -/
  | spawn
  /-- `handle.kill`, in `run_impl`. -/
  | handle
  /-- `kill`, in `wait`. -/
  | wait
  /-- `kill_guard.kill`. -/
  | guard
  /-- The kill slot of the cancel handle. -/
  | slot
  /-- `kill_for_monitor`. -/
  | monitor
  /-- The argument of `kill_escalating` in the wiring block. -/
  | wiring
  /-- The argument of `kill_escalating` in the drop guard. -/
  | dropGuard
  /-- The argument of `kill_escalating` in a call of `cancel()`. -/
  | canceller (k : CallerId ι)
  deriving DecidableEq

/-- What a step of the run thread does with the references to the job of its run. -/
def mainOps (c : RunConfig) (r : Run) : MainAct → List (CountedOp (JobOwner ι))
  | .spawn (.createJob (.ok ())) => [.make .spawn]
  | .spawn (.setInfo (.error _)) | .spawn (.command (.error _)) | .spawn (.waitChild _) =>
      [.drop .spawn]
  | .spawn (.assign (.ok ())) => [.move .spawn .handle, .clone .handle .guard]
  | .fire => [.clone .handle .wiring]
  | .kill (.terminate _) => [.drop .wiring]
  | .startMonitor ok =>
      if c.timeout.isSome then
        -- the closure that is not started is dropped with what it has captured
        .clone .handle .monitor :: if ok then [] else [.drop .monitor]
      else []
  | .wire => [.clone .handle .slot]
  | .startWait true | .callWait => [.move .handle .wait]
  | .startWait false => [.drop .handle]
  | .dropLocals =>
      if r.armed then [.clone .guard .dropGuard] else [.drop .guard, .drop .handle]
  | .guardKill (.terminate _) => [.drop .dropGuard]
  -- `handle` was declared before the guard, and may have been moved out of
  | .guardReap _ => [.drop .guard, .drop .handle]
  | _ => []

/-- What a step of the monitor does with its reference. -/
def monitorOps : MonitorAct → List (CountedOp (JobOwner ι))
  | .message | .disconnected | .probe .absent | .kill (.terminate _) => [.drop .monitor]
  | _ => []

/-- What a step of `wait` does with its reference: `drop(kill)` follows the call of
`TerminateJobObject`, and an early return or a panic drops it too. -/
def waitOps : WaitAct → List (CountedOp (JobOwner ι))
  | .startOut false | .startErr false | .childWait (.error _) | .killTree _ => [.drop .wait]
  | _ => []

variable [DecidableEq ι]

/-- What an assignment to the kill slot by the run thread of run `j` does with the reference
in it, when that is to the job of run `i`. -/
def slotOps (w : World ι) (i j : ι) : MainAct → List (CountedOp (JobOwner ι))
  -- the slot is wired once by a run, so what it drops then is the job of another one
  | .wire => if j ≠ i ∧ w.handle.kill = some i then [.drop .slot] else []
  | .clear => if w.handle.kill = some i then [.drop .slot] else []
  | _ => []

/-- What a step of `cancel()` does with the references to the job of run `i`. -/
def cancelOps (i : ι) (k : CallerId ι) : CancelAct ι → List (CountedOp (JobOwner ι))
  | .fire j => if j = i then [.clone .slot (.canceller k)] else []
  | .kill j (.terminate _) => if j = i then [.drop (.canceller k)] else []
  | _ => []

/-- What a step does with the references to the job of run `i`. -/
def jobOps (cfg : ι → RunConfig) (w : World ι) (i : ι) :
    Label ι → List (CountedOp (JobOwner ι))
  | .main j a =>
      (if j = i then mainOps (cfg i) (w.runs i) a else []) ++ slotOps w i j a
  | .monitor j a => if j = i then monitorOps a else []
  | .wait j a => if j = i then waitOps a else []
  | .cancel k a => cancelOps i k a
  | .drain _ _ _ | .proc _ _ => []

/-! ### The system with its job objects -/

/-- The system and the job object of each run. -/
structure JobWorld (ι : Type*) where
  /-- The system. -/
  world : World ι
  /-- The references to the jobs. -/
  jobs : ι → Counted (JobOwner ι)

/-- `CloseHandle` on the jobs that `closed` names: what is left in them is terminated, with
an exit code that nothing reads. -/
def World.closeJobs (w : World ι) (code : Option ℤ) (closed : ι → Bool) : World ι :=
  { w with
    runs := fun i =>
      if closed i then { w.runs i with tree := (w.runs i).tree.killGroup code } else w.runs i }

/-- The references to the jobs after a step. -/
def JobWorld.nextJobs (cfg : ι → RunConfig) (s : JobWorld ι) (l : Label ι) (i : ι) :
    Counted (JobOwner ι) :=
  (s.jobs i).run (jobOps cfg s.world i l)

/-- The step drops the last reference to the job of run `i`. -/
def JobWorld.closes (cfg : ι → RunConfig) (s : JobWorld ι) (l : Label ι) (i : ι) : Bool :=
  decide ((s.jobs i).releases < (s.nextJobs cfg l i).releases)

/-- One step: what the thread does, and what becomes of its references. -/
def jobStep (env : Env) (cfg : ι → RunConfig) (code : Option ℤ) (s : JobWorld ι)
    (l : Label ι) : Option (JobWorld ι) :=
  (step env cfg s.world l).map fun w => ⟨w.closeJobs code (s.closes cfg l), s.nextJobs cfg l⟩

/-- No job has been made. -/
def JobWorld.init (ι : Type*) (env : Env) : JobWorld ι := ⟨World.init ι env, fun _ => .fresh⟩

/-- The schedule `tr` leads to `s`. -/
def JobReaches (env : Env) (cfg : ι → RunConfig) (code : Option ℤ) (tr : List (Label ι))
    (s : JobWorld ι) : Prop :=
  Lts.exec (jobStep env cfg code) (JobWorld.init ι env) tr = some s

/-! ### Where calls stand on Windows -/

/-- `TerminateJobObject` is the whole of `kill_escalating`. -/
def KillPc.OnWindows (k : KillPc) : Prop := k = .terminate

/-- `QueryInformationJobObject` is the whole of `tree_alive`. -/
def ProbePc.OnWindows (p : ProbePc) : Prop := p = .query

/-- The calls of the run thread are those of Windows. -/
def MainPc.OnWindows : MainPc → Prop
  | .probe p => p.OnWindows
  | .kill k | .guardKill k _ => k.OnWindows
  | _ => True

/-- The calls of the monitor are those of Windows. -/
def MonitorPc.OnWindows : MonitorPc → Prop
  | .probe p => p.OnWindows
  | .kill k => k.OnWindows
  | _ => True

/-- The calls of a cancelling thread are those of Windows. -/
def Caller.OnWindows : Caller ι → Prop
  | .probe _ p => p.OnWindows
  | .kill _ k => k.OnWindows
  | _ => True

section Windows

variable {env : Env} {cfg : ι → RunConfig} {c : RunConfig} {i : ι} {hd hd' : CancelHandle ι}
  {r r' : Run} {w w' : World ι} {l : Label ι} {t t' : Tree} {grace : Grace}

theorem ProbePc.onWindows_entry (hwin : env.platform = .windows) :
    (ProbePc.entry env.platform).OnWindows := by
  rw [hwin]
  rfl

theorem KillPc.onWindows_entry (hwin : env.platform = .windows) :
    (KillPc.entry env.platform).OnWindows := by
  rw [hwin]
  rfl

theorem terminate_of_step {a : KillAct} {k k' : KillPc} (hk : k.OnWindows)
    (h : killEscalatingStep env grace t k a = some (t', k')) :
    (∃ x, a = .terminate x) ∧ ∃ res, k' = .done res := by
  obtain rfl : k = .terminate := hk
  cases killMove_of_step h with
  | terminate | terminateRefused => exact ⟨⟨_, rfl⟩, _, rfl⟩

theorem not_probeMore {p p' : ProbePc} {x : Reply} (hp : p.OnWindows)
    (h : treeAliveStep env t p x = some (.inl p')) : False := by
  obtain rfl : p = .query := hp
  obtain ⟨hgroup, -⟩ := treeAliveStep_eq_more h
  cases hgroup

omit [DecidableEq ι] in
theorem MainMove.onWindows {a : MainAct} (h : MainMove env c i hd r a hd' r')
    (hwin : env.platform = .windows) (hr : r.main.OnWindows) : r'.main.OnWindows := by
  cases h with
  | loadFired =>
    simp only
    split
    · trivial
    · exact ProbePc.onWindows_entry hwin
  | probeMore pc h =>
    rw [pc] at hr
    exact (not_probeMore hr h).elim
  | fire => exact KillPc.onWindows_entry hwin
  | killMore pc h more =>
    rw [pc] at hr
    obtain ⟨-, res, hres⟩ := terminate_of_step hr h
    exact absurd hres (more res)
  | dropLocals =>
    simp only
    split
    · exact KillPc.onWindows_entry hwin
    · trivial
  | guardMore pc h more =>
    rw [pc] at hr
    obtain ⟨-, res, hres⟩ := terminate_of_step hr h
    exact absurd hres (more res)
  | startedReturns | loadCancelled =>
    simp only
    split <;> trivial
  | startMonitor | noMonitor =>
    simp only [RunConfig.afterMonitor]
    split <;> trivial
  | @joinWait res | @waitReturned res =>
    cases res with
    | ok code =>
      simp only [Run.afterWait]
      split <;> trivial
    | error e => trivial
  | _ => trivial

omit [DecidableEq ι] in
theorem MainMove.monitor_onWindows {a : MainAct} (h : MainMove env c i hd r a hd' r')
    (hr : r.monitor.OnWindows) : r'.monitor.OnWindows := by
  cases h with
  | startMonitor => trivial
  | @joinWait res | @waitReturned res => cases res <;> exact hr
  | _ => exact hr

theorem MonitorMove.onWindows {a : MonitorAct} (h : MonitorMove env r a r')
    (hwin : env.platform = .windows) (hr : r.monitor.OnWindows) : r'.monitor.OnWindows := by
  cases h with
  | deadline => exact ProbePc.onWindows_entry hwin
  | probeMore pc h =>
    rw [pc] at hr
    exact (not_probeMore hr h).elim
  | store => exact KillPc.onWindows_entry hwin
  | killMore pc h more =>
    rw [pc] at hr
    obtain ⟨-, res, hres⟩ := terminate_of_step hr h
    exact absurd hres (more res)
  | _ => trivial

theorem CancelMove.onWindows {k : CallerId ι} {a : CancelAct ι} (h : CancelMove env w k a w')
    (hwin : env.platform = .windows) (hk : (w.callers k).OnWindows) :
    (w'.callers k).OnWindows := by
  cases h with
  | lockWired => simpa [Caller.OnWindows] using ProbePc.onWindows_entry hwin
  | probeMore pc h =>
    rw [pc] at hk
    exact (not_probeMore hk h).elim
  | fire => simpa [Caller.OnWindows] using KillPc.onWindows_entry hwin
  | killMore pc h more =>
    rw [pc] at hk
    obtain ⟨-, res, hres⟩ := terminate_of_step hk h
    exact absurd hres (more res)
  | _ => simp [Caller.OnWindows]

/-- The control flow of `spawn` on Windows. -/
inductive SpawnEdge : SpawnPc → SpawnAct → SpawnNext → Prop
  | created : SpawnEdge .createJob (.createJob (.ok ())) (.more .setInfo)
  | createFails {e} : SpawnEdge .createJob (.createJob (.error e)) (.failed e)
  | limited : SpawnEdge .setInfo (.setInfo (.ok ())) (.more .command)
  | limitFails {e} : SpawnEdge .setInfo (.setInfo (.error e)) (.failed e)
  | spawned {pid} : SpawnEdge .command (.command (.ok pid)) (.more (.assign pid))
  | commandFails {e} : SpawnEdge .command (.command (.error e)) (.failed e)
  | assigned {pid} : SpawnEdge (.assign pid) (.assign (.ok ())) (.ok pid)
  | assignFails {pid e} : SpawnEdge (.assign pid) (.assign (.error e)) (.more (.killChild e))
  | childKilled {e x} : SpawnEdge (.killChild e) (.killChild x) (.more (.waitChild e))
  | childWaited {e x} : SpawnEdge (.waitChild e) (.waitChild x) (.failed e)

theorem spawnEdge_of_step {s : SpawnPc} {a : SpawnAct} {n : SpawnNext}
    (h : spawnStep env t s a = some (t', n)) (hwin : env.platform = .windows) :
    SpawnEdge s a n := by
  unfold spawnStep at h
  split at h
  · next x =>
    cases x <;> cases h <;> constructor
  · next x =>
    cases x <;> cases h <;> constructor
  · next x =>
    cases x with
    | ok pid => rw [hwin] at h; cases h; constructor
    | error e => cases h; constructor
  · next x =>
    cases x <;> cases h <;> constructor
  · rw [Option.ite_none_right_eq_some] at h
    obtain ⟨-, h⟩ := h
    cases h
    constructor
  · next x =>
    cases x with
    | ok =>
      obtain ⟨t₁, -, h⟩ := Option.map_eq_some_iff.mp h
      cases h
      constructor
    | error e => cases h; constructor
  · cases h

/-- Every call of a run and of the cancelling threads is one of Windows. -/
structure OnWindows (w : World ι) : Prop where
  main : ∀ i, (w.runs i).main.OnWindows
  monitor : ∀ i, (w.runs i).monitor.OnWindows
  callers : ∀ k, (w.callers k).OnWindows

theorem onWindows_of_reaches {tr : List (Label ι)} (h : Reaches env cfg tr w)
    (hwin : env.platform = .windows) : OnWindows w := by
  refine Lts.exec_invariant (P := fun _ w => OnWindows w) ?_ ?_ h
  · exact ⟨fun _ => trivial, fun _ => trivial, fun _ => trivial⟩
  · intro _ w l w' _ hw hstep
    refine ⟨fun i => ?_, fun i => ?_, fun k => ?_⟩
    · have hrun := runMove_of_step hstep i
      generalize w'.runs i = r' at hrun ⊢
      cases hrun with
      | main h => exact h.onWindows hwin (hw.main i)
      | monitor h => rw [h.main_eq]; exact hw.main i
      | _ => exact hw.main i
    · have hrun := runMove_of_step hstep i
      generalize w'.runs i = r' at hrun ⊢
      cases hrun with
      | main h => exact h.monitor_onWindows (hw.monitor i)
      | monitor h => exact h.onWindows hwin (hw.monitor i)
      | _ => exact hw.monitor i
    · cases handleMove_of_step hstep with
      | main => exact hw.callers k
      | @cancel k' a w' h =>
        by_cases hk : k = k'
        · subst hk
          exact h.onWindows hwin (hw.callers k)
        · rw [h.callers_ne hk]
          exact hw.callers k
      | inner _ _ hc =>
        rw [hc]
        exact hw.callers k

end Windows

/-! ### Who owns a reference -/

/-- `spawn` has made the job. -/
def SpawnPc.hasJob : SpawnPc → Bool
  | .createJob => false
  | _ => true

/-- The references that `spawn`, the guard and a running `kill_escalating` own, by the
place of the run thread. -/
def MainPc.owns : MainPc → JobOwner ι → Bool
  | .spawn s, .spawn => s.hasJob
  | .spawn _, .guard | .finished _, .guard => false
  | _, .guard => true
  | .kill _, .wiring => true
  | .guardKill _ _, .dropGuard => true
  | _, _ => false

/-- `handle` has not been moved out of `run_impl`. -/
def MainPc.keepsHandle : MainPc → Bool
  | .toRunning _ | .inStarted | .wire | .loadCancelled | .loadFired | .probe _ | .fire | .kill _
  | .startMonitor | .openChannel | .dropTx | .startWait | .callWait => true
  | _ => false

/-- Control leaves `run_impl`, and `handle` may have been moved out. -/
def MainPc.leaving : MainPc → Bool
  | .leave _ | .guardKill _ _ | .guardReap _ => true
  | _ => false

/-- The monitor's closure has not been dropped. -/
def MonitorPc.owns : MonitorPc → Bool
  | .idle | .done => false
  | _ => true

/-- `wait` has not reached its `drop(kill)`. -/
def WaitPc.owns : WaitPc → Bool
  | .startOut | .startErr | .childWait | .killTree _ => true
  | _ => false

/-- The threads of a run own this reference, by their places. -/
def Run.owns (r : Run) : JobOwner ι → Bool
  | .wait => r.waiter.pc.owns
  | .monitor => r.monitor.owns
  | o => r.main.owns o

/-- A reference of the threads of a run, `handle` apart. -/
def JobOwner.ofRun : JobOwner ι → Bool
  | .handle | .slot | .canceller _ => false
  | _ => true

section Owners

variable {env : Env} {cfg : ι → RunConfig} {c : RunConfig} {i : ι} {hd hd' : CancelHandle ι}
  {r r' : Run} {w w' : World ι} {l : Label ι} {k : Counted (JobOwner ι)}

omit [DecidableEq ι] in
theorem Run.owns_congr (hmain : ∀ o : JobOwner ι, r'.main.owns o = r.main.owns o)
    (hmonitor : r'.monitor.owns = r.monitor.owns) (hwait : r'.waiter.pc.owns = r.waiter.pc.owns)
    (o : JobOwner ι) : r'.owns o = r.owns o := by
  cases o with
  | wait => exact hwait
  | monitor => exact hmonitor
  | _ => exact hmain _

/-- The operations of a step of the run thread bring the owners from one place to the
next. -/
theorem MainMove.owns {a : MainAct} (h : MainMove env c i hd r a hd' r')
    (hwin : env.platform = .windows) (hr : r.main.OnWindows)
    (hk : ∀ o : JobOwner ι, o.ofRun = true → (o ∈ k.owners ↔ r.owns o = true))
    (hidle : r.main = .startMonitor → r.monitor = .idle)
    (hh : r.main.keepsHandle = true → .handle ∈ k.owners)
    (o : JobOwner ι) (ho : o.ofRun = true) :
    o ∈ (k.run (mainOps c r a)).owners ↔ r'.owns o = true := by
  have hko := hk o ho
  have keep (hops : mainOps (ι := ι) c r a = [])
      (hmain : ∀ o : JobOwner ι, r'.main.owns o = r.main.owns o)
      (hmonitor : r'.monitor.owns = r.monitor.owns)
      (hwait : r'.waiter.pc.owns = r.waiter.pc.owns) :
      o ∈ (k.run (mainOps c r a)).owners ↔ r'.owns o = true := by
    rw [hops, Counted.run_nil, Run.owns_congr hmain hmonitor hwait]
    exact hko
  cases h with
  | spawnMore pc h =>
    cases spawnEdge_of_step h hwin with
    | created =>
      have hmem : o ∈ (k.run (mainOps c r (.spawn (.createJob (.ok ()))))).owners ↔
          o = .spawn ∨ o ∈ k.owners := by simp [mainOps]
      rw [hmem, hko]
      cases o <;> simp [Run.owns, MainPc.owns, SpawnPc.hasJob, pc]
    | _ =>
      refine keep rfl (fun o => ?_) rfl rfl
      rw [pc]
      cases o <;> rfl
  | spawnOk pc h =>
    cases spawnEdge_of_step h hwin
    have hspawn : JobOwner.spawn ∈ k.owners := (hk _ rfl).mpr (by simp only [Run.owns, pc]; rfl)
    have hmem : o ∈ (k.run (mainOps c r (.spawn (.assign (.ok ()))))).owners ↔
        o = .guard ∨ o = .handle ∨ o ≠ .spawn ∧ o ∈ k.owners := by simp [mainOps, hspawn]
    rw [hmem, hko]
    cases o <;> simp [Run.owns, MainPc.owns, pc]
    cases ho
  | spawnFailed pc h =>
    cases spawnEdge_of_step h hwin with
    | createFails =>
      refine keep rfl (fun o => ?_) rfl rfl
      rw [pc]
      cases o <;> rfl
    | _ =>
      have hmem : ∀ a, mainOps (ι := ι) c r a = [.drop .spawn] →
          (o ∈ (k.run (mainOps c r a)).owners ↔ o ≠ .spawn ∧ o ∈ k.owners) := fun a ha => by
        simp [ha]
      rw [hmem _ rfl, hko]
      cases o <;> simp [Run.owns, MainPc.owns, pc]
  | startedReturns pc | loadCancelled pc | loadFired pc =>
    refine keep rfl (fun o => ?_) rfl rfl
    simp only [pc]
    split <;> cases o <;> rfl
  | noMonitor pc timeout =>
    refine keep (by simp [mainOps, timeout]) (fun o => ?_) rfl rfl
    simp only [pc, RunConfig.afterMonitor]
    split <;> cases o <;> rfl
  | @joinWait res pc | @waitReturned res pc =>
    cases res with
    | ok code =>
      refine keep rfl (fun o => ?_) rfl rfl
      simp only [pc, Run.afterWait]
      split <;> cases o <;> rfl
    | error e =>
      refine keep rfl (fun o => ?_) rfl rfl
      simp only [pc, Run.afterWait]
      cases o <;> rfl
  | wire pc =>
    have hmem : o ∈ (k.run (mainOps c r .wire)).owners ↔ o = .slot ∨ o ∈ k.owners := by
      simp [mainOps]
    rw [hmem, hko]
    cases o <;> simp [Run.owns, MainPc.owns, pc]
    cases ho
  | fire pc =>
    have hmem : o ∈ (k.run (mainOps c r .fire)).owners ↔ o = .wiring ∨ o ∈ k.owners := by
      simp [mainOps]
    rw [hmem, hko]
    cases o <;> simp [Run.owns, MainPc.owns, pc]
  | killMore pc h more =>
    rw [pc] at hr
    obtain ⟨-, res, hres⟩ := terminate_of_step hr h
    exact absurd hres (more res)
  | killDone pc h =>
    rw [pc] at hr
    obtain ⟨⟨x, rfl⟩, -⟩ := terminate_of_step hr h
    have hmem : o ∈ (k.run (mainOps c r (.kill (.terminate x)))).owners ↔
        o ≠ .wiring ∧ o ∈ k.owners := by simp [mainOps]
    rw [hmem, hko]
    cases o <;> simp [Run.owns, MainPc.owns, pc]
  | startMonitor pc timeout =>
    have hmem : o ∈ (k.run (mainOps c r (.startMonitor true))).owners ↔
        o = .monitor ∨ o ∈ k.owners := by simp [mainOps, timeout]
    rw [hmem, hko]
    simp only [RunConfig.afterMonitor]
    split <;> cases o <;> simp [Run.owns, MainPc.owns, MonitorPc.owns, pc]
  | startMonitorFails pc timeout =>
    have hmem : o ∈ (k.run (mainOps c r (.startMonitor false))).owners ↔
        o ≠ .monitor ∧ o ∈ k.owners := by
      simp only [mainOps, timeout, if_true, Bool.false_eq_true, if_false, Counted.run_cons,
        Counted.run_nil, Counted.mem_apply_drop, Counted.mem_apply_clone]
      tauto
    rw [hmem, hko]
    cases o <;> simp [Run.owns, MainPc.owns, MonitorPc.owns, pc, hidle pc]
  | startWait pc | callWait pc =>
    have hmem : ∀ a, mainOps (ι := ι) c r a = [.move .handle .wait] →
        (o ∈ (k.run (mainOps c r a)).owners ↔ o = .wait ∨ o ≠ .handle ∧ o ∈ k.owners) :=
      fun a ha => by simp [ha, hh (by rw [pc]; rfl)]
    rw [hmem _ rfl, hko]
    cases o <;> simp [Run.owns, MainPc.owns, WaitPc.owns, pc]
  | startWaitFails pc =>
    have hmem : o ∈ (k.run (mainOps c r (.startWait false))).owners ↔
        o ≠ .handle ∧ o ∈ k.owners := by simp [mainOps]
    rw [hmem, hko]
    cases o <;> simp [Run.owns, MainPc.owns, pc]
  | dropLocals pc =>
    cases harmed : r.armed with
    | true =>
      have hmem : o ∈ (k.run (mainOps c r .dropLocals)).owners ↔
          o = .dropGuard ∨ o ∈ k.owners := by simp [mainOps, harmed]
      rw [hmem, hko]
      cases o <;> simp [Run.owns, MainPc.owns, pc]
    | false =>
      have hmem : o ∈ (k.run (mainOps c r .dropLocals)).owners ↔
          o ≠ .handle ∧ o ≠ .guard ∧ o ∈ k.owners := by simp [mainOps, harmed]
      rw [hmem, hko]
      cases o <;> simp [Run.owns, MainPc.owns, pc]
  | guardMore pc h more =>
    rw [pc] at hr
    obtain ⟨-, res, hres⟩ := terminate_of_step hr h
    exact absurd hres (more res)
  | guardDone pc h =>
    rw [pc] at hr
    obtain ⟨⟨x, rfl⟩, -⟩ := terminate_of_step hr h
    have hmem : o ∈ (k.run (mainOps c r (.guardKill (.terminate x)))).owners ↔
        o ≠ .dropGuard ∧ o ∈ k.owners := by simp [mainOps]
    rw [hmem, hko]
    cases o <;> simp [Run.owns, MainPc.owns, pc]
  | @guardReap _ x _ pc =>
    have hmem : o ∈ (k.run (mainOps c r (.guardReap x))).owners ↔
        o ≠ .handle ∧ o ≠ .guard ∧ o ∈ k.owners := by simp [mainOps]
    rw [hmem, hko]
    cases o <;> simp [Run.owns, MainPc.owns, pc]
  | _ pc =>
    refine keep rfl (fun o => ?_) rfl rfl
    rw [pc]
    cases o <;> rfl

theorem MonitorMove.owns {a : MonitorAct} (h : MonitorMove env r a r')
    (hr : r.monitor.OnWindows)
    (hk : ∀ o : JobOwner ι, o.ofRun = true → (o ∈ k.owners ↔ r.owns o = true))
    (o : JobOwner ι) (ho : o.ofRun = true) :
    o ∈ (k.run (monitorOps a)).owners ↔ r'.owns o = true := by
  have hko := hk o ho
  have hdrop (hops : monitorOps (ι := ι) a = [.drop .monitor]) :
      o ∈ (k.run (monitorOps a)).owners ↔ o ≠ .monitor ∧ r.owns o = true := by
    rw [hops, Counted.run_cons, Counted.run_nil, Counted.mem_apply_drop, hko]
  cases h with
  | message | disconnected =>
    rw [hdrop rfl]
    cases o <;> simp [Run.owns, MonitorPc.owns]
  | @probeDead p x pc h =>
    obtain rfl : x = .absent := by simpa using treeAliveStep_eq_answer h
    rw [hdrop rfl]
    cases o <;> simp [Run.owns, MonitorPc.owns]
  | killMore pc h more =>
    rw [pc] at hr
    obtain ⟨-, res, hres⟩ := terminate_of_step hr h
    exact absurd hres (more res)
  | killDone pc h =>
    rw [pc] at hr
    obtain ⟨⟨x, rfl⟩, -⟩ := terminate_of_step hr h
    rw [hdrop rfl]
    cases o <;> simp [Run.owns, MonitorPc.owns]
  | probeMore pc h =>
    rw [pc] at hr
    exact (not_probeMore hr h).elim
  | @probeAlive p x pc h =>
    have hx : x ≠ .absent := by simpa using treeAliveStep_eq_answer h
    have hops : monitorOps (ι := ι) (.probe x) = [] := by
      cases x <;> first | rfl | exact absurd rfl hx
    rw [hops, Counted.run_nil, hko]
    cases o <;> simp [Run.owns, MonitorPc.owns, pc]
  | deadline pc | store pc =>
    have hops : ∀ a, monitorOps (ι := ι) a = [] →
        (o ∈ (k.run (monitorOps a)).owners ↔ r.owns o = true) := fun a ha => by
      rw [ha, Counted.run_nil, hko]
    rw [hops _ rfl]
    cases o <;> simp [Run.owns, MonitorPc.owns, pc]

theorem WaitMove.owns {capture : Bool} {a : WaitAct} {t : Tree} {out : Output} {x : Waiter}
    (h : WaitMove env capture r.tree r.output r.waiter a t out x)
    (hwin : env.platform = .windows)
    (hk : ∀ o : JobOwner ι, o.ofRun = true → (o ∈ k.owners ↔ r.owns o = true))
    (o : JobOwner ι) (ho : o.ofRun = true) :
    o ∈ (k.run (waitOps a)).owners ↔
      Run.owns { r with tree := t, output := out, waiter := x } o = true := by
  have hko := hk o ho
  have hdrop (a : WaitAct) (hops : waitOps (ι := ι) a = [.drop .wait]) :
      o ∈ (k.run (waitOps a)).owners ↔ o ≠ .wait ∧ r.owns o = true := by
    rw [hops, Counted.run_cons, Counted.run_nil, Counted.mem_apply_drop, hko]
  have hkeep (a : WaitAct) (hops : waitOps (ι := ι) a = []) :
      o ∈ (k.run (waitOps a)).owners ↔ r.owns o = true := by
    rw [hops, Counted.run_nil, hko]
  cases h with
  | startOutFails | startErrFails | killTree =>
    rw [hdrop _ rfl]
    cases o <;> simp [Run.owns, WaitPc.owns]
  | childWaitFails =>
    -- on Windows `wait` returns at once
    rw [hdrop _ rfl, hwin]
    cases o <;> simp [Run.owns, WaitPc.owns, WaitPc.afterChildWait]
  | childWait pc =>
    rw [hkeep _ rfl, hwin]
    cases o <;> simp [Run.owns, WaitPc.owns, WaitPc.afterChildWait, pc]
  | startOut pc | startErr pc | joinOut pc | joinErr pc | send pc | exit pc =>
    rw [hkeep _ rfl]
    cases o <;> simp [Run.owns, WaitPc.owns, pc]

/-! Operations on one kind of reference leave the others alone. -/

theorem mem_slotOps {i j : ι} {a : MainAct} {o : JobOwner ι} (ho : o ≠ .slot) :
    o ∈ (k.run (slotOps w i j a)).owners ↔ o ∈ k.owners := by
  unfold slotOps
  split <;> first | rfl | (split <;> simp [ho])

theorem mem_cancelOps {x : CallerId ι} {a : CancelAct ι} {o : JobOwner ι}
    (ho : o ≠ .canceller x) : o ∈ (k.run (cancelOps i x a)).owners ↔ o ∈ k.owners := by
  unfold cancelOps
  split <;> first | rfl | (split <;> simp [ho])

theorem mem_mainOps_canceller {x : CallerId ι} {a : MainAct} :
    .canceller x ∈ (k.run (mainOps c r a)).owners ↔ .canceller x ∈ k.owners := by
  unfold mainOps
  split
  case h_8 ok => cases ok <;> split <;> simp
  case h_13 => split <;> simp
  all_goals simp

theorem mem_mainOps_slot {a : MainAct} :
    .slot ∈ (k.run (mainOps c r a)).owners ↔ a = .wire ∨ .slot ∈ k.owners := by
  by_cases ha : a = .wire
  · subst ha
    simp [mainOps]
  · unfold mainOps
    split
    case h_8 ok => cases ok <;> split <;> simp
    case h_9 => exact absurd rfl ha
    case h_13 => split <;> simp
    all_goals simp [ha]

theorem mem_monitorOps {a : MonitorAct} {o : JobOwner ι} (ho : o ≠ .monitor) :
    o ∈ (k.run (monitorOps a)).owners ↔ o ∈ k.owners := by
  unfold monitorOps
  split <;> simp [ho]

theorem mem_waitOps {a : WaitAct} {o : JobOwner ι} (ho : o ≠ .wait) :
    o ∈ (k.run (waitOps a)).owners ↔ o ∈ k.owners := by
  unfold waitOps
  split <;> simp [ho]

/-- The owners of the job of run `i` are the threads and the slot that stand where they own
a reference. -/
structure Owned (w : World ι) (i : ι) (k : Counted (JobOwner ι)) : Prop where
  /-- The threads of the run. -/
  run : ∀ o, o.ofRun = true → (o ∈ k.owners ↔ (w.runs i).owns o = true)
  /-- The kill slot. -/
  slot : .slot ∈ k.owners ↔ w.handle.kill = some i
  /-- The calls of `cancel()`. -/
  canceller : ∀ x, .canceller x ∈ k.owners ↔ ∃ p, w.callers x = .kill i p
  /-- `run_impl`, up to the move into `wait`. -/
  handle : (w.runs i).main.keepsHandle = true → .handle ∈ k.owners
  /-- It is dropped at the end, if it has not been moved. -/
  moved : .handle ∈ k.owners →
    (w.runs i).main.keepsHandle = true ∨ (w.runs i).main.leaving = true

theorem mem_jobOps_of_untouched {o : JobOwner ι} (hl : l.touches i = false) (ho : o ≠ .slot)
    (hc : ∀ x, o ≠ .canceller x) :
    o ∈ (k.run (jobOps cfg w i l)).owners ↔ o ∈ k.owners := by
  cases l with
  | main j a =>
    have hj : ¬j = i := by simpa [Label.touches] using hl
    simp only [jobOps, if_neg hj, List.nil_append]
    exact mem_slotOps ho
  | monitor j a | wait j a =>
    have hj : ¬j = i := by simpa [Label.touches] using hl
    simp only [jobOps, if_neg hj, Counted.run_nil]
  | cancel x a => exact mem_cancelOps (hc x)
  | drain | proc => rfl

omit [DecidableEq ι] in
theorem JobOwner.ne_slot_of_ofRun {o : JobOwner ι} (ho : o.ofRun = true) : o ≠ .slot := by
  rintro rfl
  cases ho

omit [DecidableEq ι] in
theorem JobOwner.ne_canceller_of_ofRun {o : JobOwner ι} (ho : o.ofRun = true) (x : CallerId ι) :
    o ≠ .canceller x := by
  rintro rfl
  cases ho

theorem Owned.run_move (h : RunMove env (cfg i) i w.handle (w.runs i) l r')
    (hwin : env.platform = .windows) (hcalls : OnWindows w)
    (hidle : (w.runs i).main = .startMonitor → (w.runs i).monitor = .idle) (hk : Owned w i k)
    (o : JobOwner ι) (ho : o.ofRun = true) :
    o ∈ (k.run (jobOps cfg w i l)).owners ↔ r'.owns o = true := by
  have hs := JobOwner.ne_slot_of_ofRun ho
  have hc := JobOwner.ne_canceller_of_ofRun ho
  cases h with
  | main h =>
    simp only [jobOps, if_true, Counted.run_append]
    rw [mem_slotOps hs]
    exact h.owns hwin (hcalls.main i) hk.run hidle hk.handle o ho
  | monitor h =>
    simp only [jobOps, if_true]
    exact h.owns (hcalls.monitor i) hk.run o ho
  | wait h =>
    simp only [jobOps, if_true]
    exact h.owns hwin hk.run o ho
  | drain | proc =>
    rw [jobOps, Counted.run_nil, hk.run o ho]
    cases o <;> rfl
  | cancelKill =>
    rw [jobOps, mem_cancelOps (hc _), hk.run o ho]
    cases o <;> rfl
  | other hl => rw [mem_jobOps_of_untouched hl hs hc, hk.run o ho]

theorem mem_jobOps_inner {o : JobOwner ι} (hl : l.inner = true) (hm : o ≠ .monitor)
    (hw : o ≠ .wait) : o ∈ (k.run (jobOps cfg w i l)).owners ↔ o ∈ k.owners := by
  cases l with
  | main | cancel => cases hl
  | monitor j a =>
    simp only [jobOps]
    split
    · exact mem_monitorOps hm
    · rfl
  | wait j a =>
    simp only [jobOps]
    split
    · exact mem_waitOps hw
    · rfl
  | drain | proc => rfl

theorem Owned.slot_move (h : HandleMove env cfg w l w') (hk : Owned w i k) :
    .slot ∈ (k.run (jobOps cfg w i l)).owners ↔ w'.handle.kill = some i := by
  cases h with
  | @main j a hd r h =>
    have hmain : ∀ k : Counted (JobOwner ι), .slot ∈ (k.run (if j = i then
        mainOps (cfg i) (w.runs i) a else [])).owners ↔ (j = i ∧ a = .wire) ∨ .slot ∈ k.owners := by
      intro k
      split
      · next hj => simp [mem_mainOps_slot, hj]
      · next hj => simp [hj]
    rw [jobOps, Counted.run_append]
    cases h with
    | wire =>
      by_cases hj : j = i
      · simp [slotOps, mem_mainOps_slot, hj]
      · by_cases hs : w.handle.kill = some i <;> simp [slotOps, hk.slot, hj, hs]
    | clear => by_cases hs : w.handle.kill = some i <;> simp [slotOps, hmain, hk.slot, hs]
    | _ => simp [slotOps, hmain, hk.slot]
  | @cancel x a w' h =>
    have hkill : w'.handle.kill = w.handle.kill := by cases h <;> rfl
    rw [jobOps, mem_cancelOps (by simp), hkill]
    exact hk.slot
  | @inner l w' hl hh =>
    rw [hh, ← hk.slot]
    exact mem_jobOps_inner hl (by simp) (by simp)

theorem Owned.canceller_move (h : HandleMove env cfg w l w') (hcalls : OnWindows w)
    (hk : Owned w i k) (x : CallerId ι) :
    .canceller x ∈ (k.run (jobOps cfg w i l)).owners ↔ ∃ p, w'.callers x = .kill i p := by
  cases h with
  | @main j a hd r h =>
    rw [jobOps, Counted.run_append, mem_slotOps (by simp)]
    have hmain : .canceller x ∈ (k.run (if j = i then
        mainOps (cfg i) (w.runs i) a else [])).owners ↔ .canceller x ∈ k.owners := by
      split
      · exact mem_mainOps_canceller
      · rfl
    exact hmain.trans (hk.canceller x)
  | @cancel y a w' h =>
    rw [jobOps]
    by_cases hx : x = y
    · subst hx
      have hown := hk.canceller x
      cases h with
      | @fire j pc => by_cases hj : j = i <;> simp_all [cancelOps]
      | @killMore j p a t p' pc h more =>
        have hplace := hcalls.callers x
        rw [pc] at hplace
        obtain ⟨-, res, hres⟩ := terminate_of_step hplace h
        exact absurd hres (more res)
      | @killDone j p a t res pc h =>
        have hplace := hcalls.callers x
        rw [pc] at hplace
        obtain ⟨⟨y, rfl⟩, -⟩ := terminate_of_step hplace h
        by_cases hj : j = i <;> simp_all [cancelOps]
      | _ pc => simp_all [cancelOps]
    · rw [h.callers_ne hx, ← hk.canceller x]
      exact mem_cancelOps (by simp [hx])
  | @inner l w' hl hh hc =>
    rw [hc, ← hk.canceller]
    exact mem_jobOps_inner hl (by simp) (by simp)

theorem MainMove.handle_owned {a : MainAct} (h : MainMove env c i hd r a hd' r')
    (hwin : env.platform = .windows) (hr : r.main.OnWindows)
    (hspawn : .spawn ∈ k.owners ↔ r.owns (ι := ι) .spawn = true)
    (hh : r.main.keepsHandle = true → .handle ∈ k.owners)
    (hm : .handle ∈ k.owners → r.main.keepsHandle = true ∨ r.main.leaving = true) :
    (r'.main.keepsHandle = true → .handle ∈ (k.run (mainOps c r a)).owners) ∧
      (.handle ∈ (k.run (mainOps c r a)).owners →
        r'.main.keepsHandle = true ∨ r'.main.leaving = true) := by
  cases h with
  | spawnMore pc h | spawnFailed pc h =>
    have hnot : JobOwner.handle ∉ k.owners := fun hin => by
      have := hm hin
      rw [pc] at this
      rcases this with h | h <;> cases h
    cases spawnEdge_of_step h hwin <;> simp [mainOps, MainPc.keepsHandle, hnot]
  | spawnOk pc h =>
    cases spawnEdge_of_step h hwin
    have hin : JobOwner.spawn ∈ k.owners := hspawn.mpr (by simp only [Run.owns, pc]; rfl)
    simp [mainOps, MainPc.keepsHandle, hin]
  | startedReturns pc | loadCancelled pc | loadFired pc =>
    simp only
    split <;> simp_all [mainOps, MainPc.keepsHandle]
  | noMonitor pc | startMonitor pc =>
    simp only [RunConfig.afterMonitor]
    split <;> simp_all [mainOps, MainPc.keepsHandle]
  | @joinWait res pc | @waitReturned res pc =>
    cases res with
    | ok code =>
      simp only [Run.afterWait]
      split <;> simp_all [mainOps, MainPc.keepsHandle, MainPc.leaving]
    | error e => simp_all [mainOps, MainPc.keepsHandle, MainPc.leaving, Run.afterWait]
  | dropLocals pc =>
    cases harmed : r.armed <;> simp_all [mainOps, MainPc.keepsHandle, MainPc.leaving]
  | killMore pc h more | guardMore pc h more =>
    rw [pc] at hr
    obtain ⟨-, res, hres⟩ := terminate_of_step hr h
    exact absurd hres (more res)
  | killDone pc h | guardDone pc h =>
    rw [pc] at hr
    obtain ⟨⟨x, rfl⟩, -⟩ := terminate_of_step hr h
    simp_all [mainOps, MainPc.keepsHandle, MainPc.leaving]
  | _ pc => simp_all [mainOps, MainPc.keepsHandle, MainPc.leaving]

theorem Owned.handle_move (h : RunMove env (cfg i) i w.handle (w.runs i) l r')
    (hwin : env.platform = .windows) (hcalls : OnWindows w) (hk : Owned w i k) :
    (r'.main.keepsHandle = true → .handle ∈ (k.run (jobOps cfg w i l)).owners) ∧
      (.handle ∈ (k.run (jobOps cfg w i l)).owners →
        r'.main.keepsHandle = true ∨ r'.main.leaving = true) := by
  have stays (hops : .handle ∈ (k.run (jobOps cfg w i l)).owners ↔ .handle ∈ k.owners)
      (hkeeps : r'.main.keepsHandle = true → (w.runs i).main.keepsHandle = true)
      (hleaves : (w.runs i).main.keepsHandle = true ∨ (w.runs i).main.leaving = true →
        r'.main.keepsHandle = true ∨ r'.main.leaving = true) :
      (r'.main.keepsHandle = true → .handle ∈ (k.run (jobOps cfg w i l)).owners) ∧
        (.handle ∈ (k.run (jobOps cfg w i l)).owners →
          r'.main.keepsHandle = true ∨ r'.main.leaving = true) := by
    rw [hops]
    exact ⟨fun h => hk.handle (hkeeps h), fun h => hleaves (hk.moved h)⟩
  cases h with
  | main h =>
    simp only [jobOps, if_true, Counted.run_append]
    rw [mem_slotOps (by simp)]
    exact h.handle_owned hwin (hcalls.main i) (hk.run _ rfl) hk.handle hk.moved
  | monitor h =>
    refine stays ?_ (by rw [h.main_eq]; exact id) (by rw [h.main_eq]; exact id)
    exact mem_jobOps_inner rfl (by simp) (by simp)
  | wait | drain | proc =>
    exact stays (mem_jobOps_inner rfl (by simp) (by simp)) id id
  | cancelKill => exact stays (mem_cancelOps (by simp)) id id
  | other hl => exact stays (mem_jobOps_of_untouched hl (by simp) (by simp)) id id

/-- A step brings the owners from one place to the next. -/
theorem owned_of_step (hw : OnWindows w) (hwin : env.platform = .windows)
    (hidle : (w.runs i).main = .startMonitor → (w.runs i).monitor = .idle)
    (hstep : step env cfg w l = some w') (hk : Owned w i k) :
    Owned w' i (k.run (jobOps cfg w i l)) := by
  have hrun := runMove_of_step hstep i
  have hhandle := handleMove_of_step hstep
  have hmoved := hk.handle_move hrun hwin hw
  exact ⟨hk.run_move hrun hwin hw hidle, hk.slot_move hhandle, hk.canceller_move hhandle hw,
    hmoved.1, hmoved.2⟩

/-! ### References are cloned from owners -/

theorem MainMove.allowed {a : MainAct} (h : MainMove env c i hd r a hd' r')
    (hwin : env.platform = .windows) (hr : r.main.OnWindows)
    (hfresh : r.main = .spawn .createJob → k = .fresh)
    (hown : ∀ o : JobOwner ι, o.ofRun = true → (o ∈ k.owners ↔ r.owns o = true))
    (hh : r.main.keepsHandle = true → .handle ∈ k.owners) :
    k.AllAllowed (mainOps c r a) := by
  cases h with
  | spawnMore pc h | spawnFailed pc h =>
    cases spawnEdge_of_step h hwin <;>
      simp [mainOps, Counted.AllAllowed, Counted.Allowed, hfresh, pc]
  | spawnOk pc h =>
    cases spawnEdge_of_step h hwin
    have hin : JobOwner.spawn ∈ k.owners := (hown _ rfl).mpr (by simp only [Run.owns, pc]; rfl)
    simp [mainOps, Counted.AllAllowed, Counted.Allowed, hin]
  | wire pc | fire pc =>
    simp [mainOps, Counted.AllAllowed, Counted.Allowed, hh, pc, MainPc.keepsHandle]
  | startMonitor pc timeout | startMonitorFails pc timeout =>
    simp [mainOps, Counted.AllAllowed, Counted.Allowed, hh, pc, timeout, MainPc.keepsHandle]
  | noMonitor pc timeout => simp [mainOps, Counted.AllAllowed, timeout]
  | dropLocals pc =>
    have hin : JobOwner.guard ∈ k.owners := (hown _ rfl).mpr (by simp only [Run.owns, pc]; rfl)
    cases harmed : r.armed <;> simp [mainOps, Counted.AllAllowed, Counted.Allowed, harmed, hin]
  | killMore pc h more | guardMore pc h more =>
    rw [pc] at hr
    obtain ⟨-, res, hres⟩ := terminate_of_step hr h
    exact absurd hres (more res)
  | killDone pc h | guardDone pc h =>
    rw [pc] at hr
    obtain ⟨⟨x, rfl⟩, -⟩ := terminate_of_step hr h
    simp [mainOps, Counted.AllAllowed, Counted.Allowed]
  | _ => simp [mainOps, Counted.AllAllowed, Counted.Allowed]

theorem allowed_slotOps {i j : ι} {a : MainAct} : k.AllAllowed (slotOps w i j a) := by
  unfold slotOps
  split <;> (try split) <;> simp [Counted.AllAllowed, Counted.Allowed]

theorem allowed_of_step (hw : OnWindows w) (hg : Guarded w) (hwin : env.platform = .windows)
    (hfresh : (w.runs i).main = .spawn .createJob → k = .fresh)
    (hstep : step env cfg w l = some w') (hk : Owned w i k) :
    k.AllAllowed (jobOps cfg w i l) := by
  have hrun := runMove_of_step hstep i
  generalize w'.runs i = r' at hrun
  cases l with
  | main j a =>
    rw [jobOps, Counted.allAllowed_append]
    refine ⟨?_, allowed_slotOps⟩
    split
    · next hj =>
      subst hj
      cases hrun with
      | main h => exact h.allowed hwin (hw.main j) hfresh hk.run hk.handle
      | other h => simp [Label.touches] at h
    · trivial
  | monitor j a =>
    simp only [jobOps, monitorOps]
    split <;> (try split) <;> simp [Counted.AllAllowed, Counted.Allowed]
  | wait j a =>
    simp only [jobOps, waitOps]
    split <;> (try split) <;> simp [Counted.AllAllowed, Counted.Allowed]
  | cancel x a =>
    cases cancelMove_of_step hstep with
    | @fire j pc =>
      by_cases hj : j = i
      · subst hj
        have hs : JobOwner.slot ∈ k.owners := hk.slot.mpr (hg.slot x j (by rw [pc]; rfl))
        simp [jobOps, cancelOps, Counted.AllAllowed, Counted.Allowed, hs]
      · simp [jobOps, cancelOps, hj, Counted.AllAllowed]
    | @killMore j _ a | @killDone j _ a =>
      cases a <;> by_cases hj : j = i <;>
        simp [jobOps, cancelOps, hj, Counted.AllAllowed, Counted.Allowed]
    | _ => trivial
  | drain | proc => trivial

end Owners

end AerCore
