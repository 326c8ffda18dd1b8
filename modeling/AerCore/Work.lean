import AerCore.Natural
import AerCore.Pipeline

/-!
# How much work a run makes

No thread of a run spins: whatever the order in which the threads are scheduled, and whatever
the OS answers, each step of one of them is paid for, by a fixed amount the run starts with, by
a byte that a process has written, by a sleep of a poll loop, or by a read that was interrupted
and is made again.  The number of steps is linear in these.  The callers of `cancel()` are paid
for in the same way: the first call by a fixed amount and its sleeps, and each later one by
itself, since it does no more than swap the flag.

A byte pays four times: to be read, to be sent, to be received, and for the return of the
callback.  A sleep is paid for by the clock, which the grace period of the code bounds.

## Main definitions

* `Run.work` — the potential: what the threads of a run have still to do.
* `Label.own`, `Label.credit` — the steps that are counted, and what pays for them.
* `Label.callerSleeps`, `Label.callsAgain` — what pays for the callers of `cancel()`.

## Main results

* `RunMove.work` — what a step costs and leaves of the potential is covered.
* `work_is_bounded` — **the threads of a run make at most linearly many steps**.
* `cancel_steps_le` — the callers of `cancel()` make at most linearly many steps.
* `terminated_run_does_not_spin` — **once the processes of a run have terminated, a schedule goes
  on only by sleeping, by interrupted reads and by new calls of `cancel()`**, and comes to rest
  only where `run_impl` has been left.
-/

namespace AerCore

variable {ι : Type*}

/-! ### The potential -/

/-- What a call of `spawn` has still to do. -/
def SpawnPc.work : SpawnPc → ℕ
  | .createJob => 5
  | .setInfo => 4
  | .command => 3
  | .assign _ => 2
  | .killChild _ => 1
  | .waitChild _ => 0

/-- What a run thread has still to do. -/
def MainPc.work : MainPc → ℕ
  | .spawn s => 43 + s.work
  | m => m.rank

/-- What a monitor has still to do. -/
def MonitorPc.work : MonitorPc → ℕ
  | .idle => 14
  | .recv => 13
  | .probe p => 11 + p.rank
  | .store => 10
  | .kill k => 1 + k.rank
  | .done => 0

/-- What the drain threads and the pump loop have still to do with what has been read. -/
def Output.work (o : Output) : ℕ :=
  o.stdout.pc.rank + o.stderr.pc.rank + 2 * o.chunks.queue.length

/-- The number of bytes in the two pipes. -/
def Tree.unread (t : Tree) : ℕ := (t.buf .stdout).length + (t.buf .stderr).length

/-- What the threads of a run have still to do. -/
def Run.work (r : Run) : ℕ :=
  r.main.work + r.waiter.pc.rank + r.monitor.work + r.output.work + 4 * r.tree.unread

/-! ### What pays for it -/

/-- The step is followed by a sleep and another poll. -/
def KillAct.sleeps : KillAct → Bool
  | .clock false => true
  | _ => false

section Labels

variable [DecidableEq ι] (i : ι)

/-- A step of one of the threads of run `i`. -/
def Label.own : Label ι → Bool
  | .main j _ | .monitor j _ | .wait j _ | .drain j _ _ => decide (j = i)
  | .cancel _ _ | .proc _ _ => false

/-- A thread of run `i` sleeps in the poll loop of `kill_escalating`. -/
def Label.sleeps : Label ι → Bool
  | .main j (.kill a) | .main j (.guardKill a) | .monitor j (.kill a) => decide (j = i) && a.sleeps
  | _ => false

/-- A read of run `i` is interrupted. -/
def Label.interrupts : Label ι → Bool
  | .drain j _ (.read .interrupted) => decide (j = i)
  | _ => false

/-- The number of bytes that a process of run `i` writes with the label. -/
def Label.written (l : Label ι) : ℕ := (l.writeOf i .stdout).length + (l.writeOf i .stderr).length

/-- What the label pays for. -/
def Label.credit (l : Label ι) : ℕ :=
  4 * l.written i + 3 * (l.sleeps i).toNat + (l.interrupts i).toNat

end Labels

/-- Only a sleep leaves more to do. -/
theorem killEscalatingStep_work {env : Env} {grace : Grace} {t t' : Tree} {k k' : KillPc}
    {a : KillAct} (h : killEscalatingStep env grace t k a = some (t', k')) :
    k'.rank + 1 ≤ k.rank + 3 * a.sleeps.toNat := by
  cases killMove_of_step h with
  | probeMore hp =>
    obtain ⟨rfl, rfl, -⟩ := treeAliveStep_eq_more hp
    exact Nat.le_add_right _ _
  | probeAlive | probeDead => simp only [KillPc.rank, KillAct.sleeps, Bool.toNat_false]; omega
  | _ => simp [KillPc.rank, KillAct.sleeps, ProbePc.rank]

theorem KillPc.rank_entry_le (p : Platform) : (KillPc.entry p).rank ≤ 8 := by
  cases p <;> decide

theorem ProbePc.rank_entry_le (p : Platform) : (ProbePc.entry p).rank ≤ 1 := by
  cases p <;> decide

/-- A call of `kill_escalating` that has not returned has two steps to do at least. -/
theorem KillPc.two_le_rank {k : KillPc} (h : ∀ res, k ≠ .done res) : 2 ≤ k.rank := by
  cases k with
  | done res => exact absurd rfl (h res)
  | poll p => simp only [rank]; omega
  | _ => decide

theorem killEscalatingStep_running {env : Env} {grace : Grace} {t t' : Tree} {k k' : KillPc}
    {a : KillAct} (h : killEscalatingStep env grace t k a = some (t', k')) : 2 ≤ k.rank := by
  apply KillPc.two_le_rank
  rintro res rfl
  cases killMove_of_step h

theorem spawnStep_work {env : Env} {t t' : Tree} {s s' : SpawnPc} {a : SpawnAct}
    (h : spawnStep env t s a = some (t', .more s')) : s'.work < s.work := by
  unfold spawnStep at h
  split at h
  · next x => cases x <;> cases h; decide
  · next x => cases x <;> cases h; decide
  · next x =>
    cases x with
    | error e => cases h
    | ok pid =>
      simp only [Option.some.injEq] at h
      split at h <;> cases h
      exact Nat.lt_succ_self _
  · next x => cases x <;> cases h; exact Nat.lt_succ_self _
  · obtain ⟨-, h⟩ := Option.ite_none_right_eq_some.mp h
    cases h
    exact Nat.lt_succ_self _
  · next x =>
    cases x with
    | error e => cases h
    | ok u =>
      obtain ⟨t₁, -, h⟩ := Option.map_eq_some_iff.mp h
      cases h
  · cases h

section Moves

variable {env : Env} {c : RunConfig} {i : ι} {hd hd' : CancelHandle ι} {r r' : Run}
  {l : Label ι} {t : Tree} {o : Output} {x : Waiter}

@[simp] theorem MainPc.work_spawn (s : SpawnPc) : MainPc.work (.spawn s) = 43 + s.work := rfl

/-- The run thread pays for its steps, the tree apart. -/
theorem MainMove.work [DecidableEq ι] {a : MainAct} (h : MainMove env c i hd r a hd' r')
    (ha : Answered env r) (hm : r.main = .startMonitor → r.monitor = .idle) :
    r'.main.work + r'.waiter.pc.rank + r'.monitor.work + r'.output.work + 1 ≤
      r.main.work + r.waiter.pc.rank + r.monitor.work + r.output.work +
        3 * (Label.sleeps i (.main i a)).toNat := by
  have hkill := KillPc.rank_entry_le env.platform
  have hprobe := ProbePc.rank_entry_le env.platform
  cases h with
  | spawnMore pc h =>
    have := spawnStep_work h
    simp only [pc, MainPc.work_spawn]
    omega
  | startedReturns pc | loadCancelled pc | loadFired pc =>
    simp only [pc]
    split <;> simp only [MainPc.work, MainPc.rank] <;> omega
  | probeMore pc h =>
    obtain ⟨rfl, rfl, -⟩ := treeAliveStep_eq_more h
    simp only [pc, MainPc.work, MainPc.rank, ProbePc.rank]
    omega
  | killMore pc h | guardMore pc h =>
    have := killEscalatingStep_work h
    simp only [pc, MainPc.work, MainPc.rank, Label.sleeps, decide_true, Bool.true_and]
    omega
  | killDone pc h | guardDone pc h =>
    have := killEscalatingStep_running h
    simp only [pc, MainPc.work, MainPc.rank]
    omega
  | startMonitor pc | noMonitor pc =>
    simp only [pc, hm pc, RunConfig.afterMonitor]
    split <;> simp only [MainPc.work, MainPc.rank, MonitorPc.work] <;> omega
  | startWait pc | callWait pc =>
    have hw := ha.before (by rw [pc]; rfl)
    simp only [pc, hw, MainPc.work, MainPc.rank, WaitPc.rank]
    omega
  | recv pc queue =>
    simp only [pc, MainPc.work, MainPc.rank, Output.work, queue, List.length_cons]
    omega
  | @joinWait res pc | @waitReturned res pc =>
    cases res with
    | ok code =>
      simp only [Run.afterWait, pc]
      split <;> simp only [MainPc.work, MainPc.rank] <;> omega
    | error e =>
      simp only [Run.afterWait, pc, MainPc.work, MainPc.rank]
      omega
  | dropLocals pc =>
    simp only [pc]
    split <;> simp only [MainPc.work, MainPc.rank, Output.work] <;> omega
  | startWaitFails pc =>
    simp only [pc, MainPc.work, MainPc.rank, Output.work, ChunkChan.queue_dropTx]
    omega
  | _ pc =>
    simp only [pc, MainPc.work, MainPc.rank, Output.work, SpawnPc.work, List.length_nil]
    omega

/-- The monitor pays for its steps. -/
theorem MonitorMove.work [DecidableEq ι] {a : MonitorAct} (h : MonitorMove env r a r') :
    r'.monitor.work + 1 ≤ r.monitor.work + 3 * (Label.sleeps i (.monitor i a)).toNat := by
  have hkill := KillPc.rank_entry_le env.platform
  have hprobe := ProbePc.rank_entry_le env.platform
  cases h with
  | probeMore pc h =>
    obtain ⟨rfl, rfl, -⟩ := treeAliveStep_eq_more h
    simp only [pc, MonitorPc.work, ProbePc.rank]
    omega
  | killMore pc h =>
    have := killEscalatingStep_work h
    simp only [pc, MonitorPc.work, Label.sleeps, decide_true, Bool.true_and]
    omega
  | _ pc =>
    simp only [pc, MonitorPc.work]
    omega

/-- `wait` pays for its steps, the tree apart. -/
theorem WaitMove.work {capture : Bool} {a : WaitAct}
    (h : WaitMove env capture r.tree r.output r.waiter a t o x) (ha : Answered env r) :
    x.pc.rank + o.work + 1 ≤ r.waiter.pc.rank + r.output.work := by
  have hw := ha.wait
  cases h with
  | startOut pc =>
    rw [pc] at hw
    simp only [pc, Output.work, WaitPc.rank, hw.1, DrainPc.rank]
    omega
  | startErr pc =>
    rw [pc] at hw
    have hidle : r.output.stderr.pc = .idle := hw
    simp only [pc, Output.work, WaitPc.rank, hidle, DrainPc.rank]
    omega
  | @childWait status pc | childWaitFails pc =>
    simp only [pc, WaitPc.afterChildWait]
    split <;> simp only [WaitPc.rank] <;> omega
  | startOutFails pc | startErrFails pc =>
    simp only [pc, Output.work, WaitPc.rank, ChunkChan.queue_dropTx]
    omega
  | _ pc =>
    simp only [pc, WaitPc.rank]
    omega

/-- A drain thread pays for its steps with the bytes it takes. -/
theorem DrainMove.work [DecidableEq ι] {capture : Bool} {s : Stream} {a : DrainAct}
    (h : DrainMove capture s r.tree r.output a t o) :
    o.work + 4 * t.unread + 1 ≤
      r.output.work + 4 * r.tree.unread + (Label.interrupts i (.drain i s a)).toNat := by
  cases h with
  | @readBytes bs pc pos le unread =>
    have hlen := (List.isPrefixOf_iff_prefix.mp unread).length_le
    cases s <;> cases capture <;>
      simp_all [Output.work, Output.setDrain, Output.drain, DrainPc.rank, Tree.unread, Tree.setBuf,
        Tree.buf] <;> omega
  | send pc =>
    have hlen := ChunkChan.length_send r.output.chunks (s.makeMsg (r.output.drain s).seq ‹_›)
    cases s <;> simp_all [Output.work, Output.setDrain, Output.drain, DrainPc.rank] <;> omega
  | readInterrupted pc =>
    -- `io::copy` tries again
    have hpaid : (Label.interrupts i (.drain i s (.read .interrupted))).toNat = 1 := by
      simp [Label.interrupts]
    rw [hpaid]
    cases capture with
    | false => simp
    | true =>
      cases s <;> simp_all [Output.work, Output.endDrain, Output.setDrain, Output.drain,
        DrainPc.rank, ChunkChan.dropTx]
  | readEof pc | readError pc =>
    cases s <;> simp_all [Output.work, Output.endDrain, Output.setDrain, Output.drain,
      DrainPc.rank, ChunkChan.dropTx] <;> omega

/-- A step adds to the pipes no more than is written, and takes from them what is read. -/
theorem RunMove.unread [DecidableEq ι] (h : RunMove env c i hd r l r') (hn : Unspawned r) :
    r'.tree.unread ≤ r.tree.unread + l.written i := by
  have hlen : ∀ s, (r'.tree.buf s).length ≤ (r.tree.buf s).length + (l.writeOf i s).length := by
    intro s
    have hbuf := congrArg List.length (h.buf hn (s := s))
    simp only [List.length_append] at hbuf
    omega
  have hout := hlen .stdout
  have herr := hlen .stderr
  simp only [Tree.unread, Label.written]
  omega

/-- **What a step costs and leaves of the potential is covered** by its credit and by the
potential before it. -/
theorem RunMove.work [DecidableEq ι] (h : RunMove env c i hd r l r') (ha : Answered env r)
    (hm : r.main = .startMonitor → r.monitor = .idle) (hn : Unspawned r) :
    r'.work + (l.own i).toNat ≤ r.work + l.credit i := by
  have hunread := h.unread hn
  cases h with
  | main h =>
    have hwork := h.work ha hm
    simp only [Label.own, decide_true, Bool.toNat_true, Run.work, Label.credit]
    omega
  | monitor h =>
    have hwork := h.work (i := i)
    have hframe : r'.main = r.main ∧ r'.waiter = r.waiter ∧ r'.output = r.output :=
      ⟨h.main_eq, h.waiter_eq, h.output_eq⟩
    simp only [Label.own, decide_true, Bool.toNat_true, Run.work, Label.credit, hframe]
    omega
  | wait h =>
    have hwork := h.work ha
    simp only [Label.own, decide_true, Bool.toNat_true, Run.work, Label.credit] at hunread ⊢
    omega
  | drain h =>
    have hwork := h.work (i := i)
    simp only [Label.own, decide_true, Bool.toNat_true, Run.work, Label.credit]
    omega
  | proc | cancelKill =>
    simp only [Label.own, Bool.toNat_false, Run.work, Label.credit] at hunread ⊢
    omega
  | other hl =>
    have hown : l.own i = false := by cases l <;> first | rfl | exact hl
    simp only [hown, Bool.toNat_false]
    omega

end Moves

/-! ### Whole runs -/

section Runs

variable [DecidableEq ι] {env : Env} {cfg : ι → RunConfig} {tr : List (Label ι)} {w : World ι}

/-- The potential a run starts with. -/
theorem work_init_le (env : Env) : (Run.init env).work ≤ 75 := by
  cases hp : env.platform <;> simp [Run.init, Run.work, hp, SpawnPc.entry, SpawnPc.work,
    MonitorPc.work, WaitPc.rank, Output.work, Output.none, DrainPc.rank, ChunkChan.none,
    Tree.unread]

theorem sum_map_toNat {α : Type*} (p : α → Bool) (l : List α) :
    (l.map fun a => (p a).toNat).sum = l.countP p := by
  induction l with
  | nil => rfl
  | cons a l ih =>
    rw [List.map_cons, List.sum_cons, ih, List.countP_cons]
    cases p a <;> simp
    omega

/-- What a run is credited in all. -/
theorem sum_credit (i : ι) (tr : List (Label ι)) :
    (tr.map (Label.credit i)).sum =
      4 * ((writtenTo i .stdout tr).length + (writtenTo i .stderr tr).length) +
        3 * tr.countP (Label.sleeps i) + tr.countP (Label.interrupts i) := by
  induction tr with
  | nil => rfl
  | cons l tr ih =>
    have hwritten : ∀ s, writtenTo i s (l :: tr) = l.writeOf i s ++ writtenTo i s tr := fun _ => rfl
    rw [List.map_cons, List.sum_cons, ih, List.countP_cons, List.countP_cons, hwritten, hwritten,
      List.length_append, List.length_append, Label.credit, Label.written]
    cases l.sleeps i <;> cases l.interrupts i <;> simp <;> omega

/-- The steps that follow a reachable world are paid for by what is still to do in it. -/
theorem own_steps_le (h : Reaches env cfg tr w) (i : ι) {tr' : List (Label ι)} {w' : World ι}
    (hexec : Lts.exec (step env cfg) w tr' = some w') :
    (w'.runs i).work + tr'.countP (Label.own i) ≤ (w.runs i).work +
      (4 * ((writtenTo i .stdout tr').length + (writtenTo i .stderr tr').length) +
        3 * tr'.countP (Label.sleeps i) + tr'.countP (Label.interrupts i)) := by
  have hpaid := Lts.exec_amortised (fun w : World ι => (w.runs i).work)
    (fun l => (l.own i).toNat) (Label.credit i) (fun pre v l v' hv hstep => by
      have hreach : Reaches env cfg (tr ++ pre) v := Lts.exec_append_eq_some.mpr ⟨w, h, hv⟩
      exact (runMove_of_step hstep i).work (answered_of_reaches hreach i)
        (fun hm => monitor_idle_of_before hreach (by rw [hm]; rfl))
        (unspawned_of_reaches hreach i)) hexec
  rwa [sum_credit, sum_map_toNat] at hpaid

/-- **The threads of a run make at most linearly many steps**: besides a constant, four for each
byte that is written to a pipe, three for each sleep of a poll loop, and one for each read that
is interrupted. -/
theorem work_is_bounded (h : Reaches env cfg tr w) (i : ι) :
    tr.countP (Label.own i) ≤ 75 +
      4 * ((writtenTo i .stdout tr).length + (writtenTo i .stderr tr).length) +
        3 * tr.countP (Label.sleeps i) + tr.countP (Label.interrupts i) := by
  have hstart : Reaches env cfg [] (World.init ι env) := rfl
  have hpaid := own_steps_le hstart i h
  have hinit : ((World.init ι env).runs i).work ≤ 75 := work_init_le env
  omega

/-- The run with three bytes on stdout and one on stderr makes 38 steps of the 91 it is allowed. -/
theorem capturedRun_work_is_bounded :
    (capturedRun.countP (Label.own ()) = 38) ∧ ∃ w,
      Reaches Env.posix (fun _ => ⟨none, true, false⟩) capturedRun w ∧
        capturedRun.countP (Label.own ()) ≤ 91 := by
  obtain ⟨w, hw, -⟩ : ∃ w, Reaches Env.posix (fun _ => ⟨none, true, false⟩) capturedRun w ∧
      (w.runs ()).main = .finished (.ret (.ok ())) := Lts.exists_exec_of_any (by decide +kernel)
  exact ⟨by decide, w, hw, work_is_bounded hw ()⟩

/-! ### The callers -/

/-- A caller of `cancel()` sleeps in the poll loop of `kill_escalating`. -/
def Label.callerSleeps : Label ι → Bool
  | .cancel _ (.kill _ a) => a.sleeps
  | _ => false

/-- A call of `cancel()` that is not the first one. -/
def Label.callsAgain : Label ι → Bool
  | .cancel _ (.swap true) => true
  | _ => false

omit [DecidableEq ι] in
theorem KillPc.rank_le (k : KillPc) : k.rank ≤ 8 := by
  cases k with
  | poll p => cases p <;> decide
  | _ => simp [KillPc.rank]

omit [DecidableEq ι] in
theorem Caller.rank_le (x : Caller ι) : x.rank ≤ 14 := by
  cases x with
  | kill j k =>
    have := k.rank_le
    simp only [Caller.rank]
    omega
  | probe j p => cases p <;> simp [Caller.rank, ProbePc.rank]
  | _ => simp [Caller.rank]

/-- A call that is under way pays for its steps. -/
theorem CancelMove.rank {q : CallerId ι} {a : CancelAct ι} {w' : World ι}
    (h : CancelMove env w q a w') (hq : w.callers q ≠ .idle) :
    (w'.callers q).rank + 1 ≤
      (w.callers q).rank + 3 * (Label.callerSleeps (.cancel q a)).toNat := by
  have hkill := KillPc.rank_entry_le env.platform
  have hprobe := ProbePc.rank_entry_le env.platform
  cases h with
  | swapFirst pc | swapAgain pc => exact absurd pc hq
  | probeMore pc h =>
    obtain ⟨rfl, rfl, -⟩ := treeAliveStep_eq_more h
    simp [pc, Caller.rank, ProbePc.rank]
  | killMore pc h =>
    have := killEscalatingStep_work h
    simp only [setCaller_callers_self, pc, Caller.rank, Label.callerSleeps]
    omega
  | killDone pc h =>
    have := killEscalatingStep_running h
    simp only [setCaller_callers_self, pc, Caller.rank]
    omega
  | _ pc =>
    simp only [setCaller_callers_self, pc, Caller.rank]
    omega

/-- What pays for the steps of the callers. -/
def callerCredit (tr : List (Label ι)) : ℕ :=
  15 + 3 * tr.countP Label.callerSleeps + tr.countP Label.callsAgain

/-- The callers of `cancel()` have paid for their steps, with what the first call has still to
do. -/
structure CallersPaid (tr : List (Label ι)) (w : World ι) : Prop where
  first : w.handle.cancelled = false → tr.countP Label.cancels + 15 ≤ callerCredit tr
  underway : ∀ q, tr.countP Label.cancels + (w.callers q).rank ≤ callerCredit tr

theorem CallersPaid.cancel {pre : List (Label ι)} {w' : World ι} {q : CallerId ι} {a : CancelAct ι}
    (hp : CallersPaid pre w) (hg : Guarded w) (h : CancelMove env w q a w') :
    CallersPaid (pre ++ [Label.cancel q a]) w' := by
  have hcount :
      (pre ++ [Label.cancel q a]).countP Label.cancels = pre.countP Label.cancels + 1 := by
    simp [Label.cancels]
  have hcredit : callerCredit (pre ++ [Label.cancel q a]) = callerCredit pre +
      3 * (Label.callerSleeps (.cancel q a)).toNat + (Label.callsAgain (.cancel q a)).toNat := by
    simp only [callerCredit, List.countP_append, List.countP_singleton]
    cases Label.callerSleeps (.cancel q a) <;> cases Label.callsAgain (.cancel q a) <;> simp <;>
      omega
  by_cases hq : w.callers q = .idle
  · cases h with
    | swapFirst pc first =>
      have hfirst := hp.first first
      refine ⟨fun hc => ?_, fun q' => ?_⟩
      · cases hc
      · rw [hcount, hcredit]
        by_cases hqq : q' = q
        · subst hqq
          rw [setCaller_callers_self, Caller.rank]
          omega
        · rw [setCaller_callers_ne _ _ hqq]
          have hidle : w.callers q' = .idle := hg.idle first q'
          show _ + (w.callers q').rank ≤ _
          rw [hidle, Caller.rank]
          omega
    | swapAgain pc again =>
      have hagain : (Label.callsAgain (.cancel q (.swap true)) : Bool) = true := rfl
      refine ⟨fun hc => ?_, fun q' => ?_⟩
      · exact absurd (again.symm.trans hc) (by simp)
      · rw [hcount, hcredit, hagain, Bool.toNat_true]
        have hunder := hp.underway q'
        by_cases hqq : q' = q
        · subst hqq
          rw [setCaller_callers_self, Caller.rank]
          omega
        · rw [setCaller_callers_ne _ _ hqq]
          omega
    | _ pc => rw [hq] at pc; cases pc
  · have hrank := h.rank hq
    have hunder := hp.underway q
    have hcancelled : w.handle.cancelled ≠ false := fun hc => hq (hg.idle hc q)
    refine ⟨fun hc => ?_, fun q' => ?_⟩
    · exact absurd (by cases h <;> first | exact hc | exact absurd ‹_› hq) hcancelled
    · rw [hcount, hcredit]
      by_cases hqq : q' = q
      · subst hqq
        omega
      · -- nobody else is under way
        have hidle : w.callers q' = .idle := by
          by_contra hne
          exact hqq (hg.sole q' q hne hq)
        rw [h.callers_ne hqq, hidle, Caller.rank]
        omega

/-- The callers of `cancel()` make at most linearly many steps: besides a constant for the first
call, three for each sleep, and one for each further call. -/
theorem cancel_steps_le (h : Reaches env cfg tr w) {tr' : List (Label ι)} {w' : World ι}
    (hexec : Lts.exec (step env cfg) w tr' = some w') :
    tr'.countP Label.cancels ≤ callerCredit tr' := by
  have hpaid : CallersPaid tr' w' := by
    refine Lts.exec_invariant (P := CallersPaid) ?_ ?_ hexec
    · refine ⟨fun _ => by simp [callerCredit], fun q => ?_⟩
      have := (w.callers q).rank_le
      simp only [List.countP_nil, callerCredit]
      omega
    · intro pre v l v' hv hp hstep
      have hreach : Reaches env cfg (tr ++ pre) v := Lts.exec_append_eq_some.mpr ⟨w, h, hv⟩
      cases handleMove_of_step hstep with
      | cancel hc => exact hp.cancel (guarded_of_reaches hreach) hc
      | @main j a hd r hm =>
        have hcancelled : hd.cancelled = v.handle.cancelled := by
          rcases hm.handle with rfl | ⟨-, -, rfl⟩ | ⟨-, -, -, rfl⟩ | ⟨-, -, -, rfl⟩ <;> rfl
        refine ⟨fun hc => ?_, fun q => ?_⟩
        · simpa [callerCredit, Label.cancels, Label.callerSleeps, Label.callsAgain] using
            hp.first (hcancelled ▸ hc)
        · simpa [callerCredit, Label.cancels, Label.callerSleeps, Label.callsAgain] using
            hp.underway q
      | inner hl handle callers =>
        have hno : l.cancels = false ∧ l.callerSleeps = false ∧ l.callsAgain = false := by
          cases l <;> first | exact ⟨rfl, rfl, rfl⟩ | cases hl
        refine ⟨fun hc => ?_, fun q => ?_⟩
        · simpa [callerCredit, hno] using hp.first (handle ▸ hc)
        · rw [callers]
          simpa [callerCredit, hno] using hp.underway q
  have := hpaid.underway (.thread 0)
  omega

/-! ### Termination -/

/-- A step of a thread of run `i`, or of a call of `cancel()`. -/
def Label.core (i : ι) (l : Label ι) : Bool := l.own i || l.cancels

theorem length_of_core {i : ι} {tr : List (Label ι)} (hcore : ∀ l ∈ tr, l.core i = true) :
    tr.length = tr.countP (Label.own i) + tr.countP Label.cancels := by
  induction tr with
  | nil => rfl
  | cons l tr ih =>
    obtain ⟨hl, htr⟩ := List.forall_mem_cons.mp hcore
    have hone : (l.own i).toNat + l.cancels.toNat = 1 := by
      cases l <;> simp_all [Label.core, Label.own, Label.cancels]
    rw [List.length_cons, ih htr, List.countP_cons, List.countP_cons]
    cases hown : l.own i <;> cases hcancels : l.cancels <;> simp_all <;> omega

/-- A run whose processes have terminated is not stuck. -/
theorem not_stuck_of_terminated {c : RunConfig} {r : Run} (ht : r.tree.terminated = true) :
    ¬Stuck c r := by
  simp only [Tree.terminated, Bool.and_eq_true, decide_eq_true_eq] at ht
  have hnone := Tree.dead_iff.mp ht.1
  have hlive : r.tree.root ≠ .live := by
    intro hl
    have := hnone .root
    simp [Tree.proc?, hl] at this
  have hheld : ∀ s, r.tree.held s ≠ true := by
    intro s hs
    obtain ⟨who, p, hp, -⟩ := Tree.held_iff.mp hs
    rw [hnone] at hp
    cases hp
  intro hstuck
  cases hstuck with
  | root _ _ live => exact hlive live
  | join _ _ drain => exact hheld _ drain.2.2
  | pump _ _ drain => exact hheld _ drain.2.2
  | guard _ live => exact hlive live

/-- Where no thread can go on, the run has been left. -/
theorem finished_of_rest (h : Reaches env cfg tr w) (hu : env.platform = .unix) {i : ι}
    (ht : (w.runs i).tree.terminated = true)
    (hrest : ∀ l : Label ι, l.granted = true → l.core i = true → step env cfg w l = none) :
    ∃ o, (w.runs i).main = .finished o := by
  -- every call of `cancel()` has come to its end
  have hidle : ∀ q, w.callers q = .idle := by
    intro q
    by_contra hq
    obtain ⟨a, w', hg, hstep, -⟩ := caller_advances h hq
    rw [hrest _ hg (by simp [Label.core, Label.cancels])] at hstep
    cases hstep
  have hfree : w.handle.locked = false := by
    by_contra hl
    obtain ⟨q, hq⟩ := exists_holder_of_reaches h (by simpa using hl)
    rw [hidle q] at hq
    cases hq
  by_contra hfin
  rcases goes_on_or_stuck h hu (fun o ho => hfin ⟨o, ho⟩) (fun _ => hfree) (fun _ => hidle _)
    with ⟨l, w', hg, hattends, hstep, -⟩ | hstuck
  · have hown : l.own i = true := by cases l <;> first | exact hattends | cases hattends
    rw [hrest l hg (by simp [Label.core, hown])] at hstep
    cases hstep
  · exact not_stuck_of_terminated ht hstuck

/-- **Once the processes of a run have terminated, nobody spins.**  A schedule of the threads of
the run and of the callers of `cancel()` goes on beyond the work that is left only by sleeping
in a poll loop, by reads that are interrupted, and by new calls of `cancel()`; and when none of
them can go on, `run_impl` has been left. -/
theorem terminated_run_does_not_spin (h : Reaches env cfg tr w) (hu : env.platform = .unix) {i : ι}
    (ht : (w.runs i).tree.terminated = true) {tr' : List (Label ι)} {w' : World ι}
    (hcore : ∀ l ∈ tr', l.core i = true) (hexec : Lts.exec (step env cfg) w tr' = some w') :
    tr'.length ≤ (w.runs i).work + 15 +
        3 * (tr'.countP (Label.sleeps i) + tr'.countP Label.callerSleeps) +
        tr'.countP (Label.interrupts i) + tr'.countP Label.callsAgain ∧
      ((∀ l : Label ι, l.granted = true → l.core i = true → step env cfg w' l = none) →
        ∃ o, (w'.runs i).main = .finished o) := by
  have hreach : Reaches env cfg (tr ++ tr') w' := Lts.exec_append_eq_some.mpr ⟨w, h, hexec⟩
  constructor
  · have hwritten : ∀ s, writtenTo i s tr' = [] := by
      intro s
      apply List.flatMap_eq_nil_iff.mpr
      intro l hl
      have hl := hcore l hl
      cases l with
      | proc => cases hl
      | _ => rfl
    have hown := own_steps_le h i hexec
    rw [hwritten, hwritten, List.length_nil] at hown
    have hcancel := cancel_steps_le h hexec
    rw [callerCredit] at hcancel
    have hlength := length_of_core hcore
    omega
  · refine finished_of_rest hreach hu ?_
    refine Lts.exec_invariant (P := fun pre v => Reaches env cfg (tr ++ pre) v ∧
      (v.runs i).tree.terminated = true) ⟨by simpa using h, ht⟩ ?_ hexec |>.2
    rintro pre v l v' hv ⟨hr, htv⟩ hstep
    refine ⟨?_, terminated_step hr hu hstep htv⟩
    rw [← List.append_assoc]
    exact Lts.exec_concat_eq_some.mpr ⟨v, hr, hstep⟩

/-- The root exits, and then `cancel()` polls once for the zombie until `wait` has reaped it. -/
def politeCancel : List (Label Unit) :=
  beginRun () 7 ++
  [Label.main () .callWait, .wait () (.startOut true), .wait () (.startErr true),
    .proc () (.rootExit (some 0)), .cancel (.thread 0) (.swap false), .cancel (.thread 0) .lock,
    .cancel (.thread 0) (.probe () .present), .cancel (.thread 0) (.fire ()),
    .cancel (.thread 0) (.kill () (.term .present)),
    .cancel (.thread 0) (.kill () (.probe .present)),
    .cancel (.thread 0) (.kill () (.clock false)), .wait () (.childWait (.ok ())),
    .cancel (.thread 0) (.kill () (.probe .absent)),
    .cancel (.thread 0) (.kill () (.probe .absent)), .cancel (.thread 0) .unlock,
    .wait () (.killTree .absent), .drain () .stdout (.read .eof), .drain () .stderr (.read .eof),
    .wait () .joinOut, .wait () .joinErr, .main () .waitReturned] ++
  endRun () false true

/-- From the exit of the root on it makes 24 steps, ten of them in `cancel()`, which sleeps
once. -/
theorem politeCancel_does_not_spin :
    ∃ w w', Reaches Env.posix (fun _ => ⟨none, false, true⟩) (politeCancel.take 10) w ∧
      Lts.exec (step Env.posix fun _ => ⟨none, false, true⟩) w (politeCancel.drop 10) = some w' ∧
      (politeCancel.drop 10).length = 24 ∧
      (politeCancel.drop 10).length ≤ (w.runs ()).work + 15 + 3 * (0 + 1) + 0 + 0 := by
  obtain ⟨w, hw, ht, hrest⟩ :
      ∃ w, Reaches Env.posix (fun _ => ⟨none, false, true⟩) (politeCancel.take 10) w ∧
        (w.runs ()).tree.terminated = true ∧
        (Lts.exec (step Env.posix fun _ => ⟨none, false, true⟩) w (politeCancel.drop 10)).isSome :=
    Lts.exists_exec_of_any (by decide +kernel)
  obtain ⟨w', hw'⟩ := Option.isSome_iff_exists.mp hrest
  exact ⟨w, w', hw, hw', by decide, (terminated_run_does_not_spin hw rfl ht (by decide) hw').1⟩

end Runs

end AerCore
