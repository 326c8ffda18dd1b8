import AerCore.Standing

/-!
# Progress

A thread that is under way has a next step of its own, unless it waits for something: a
mutex, a message, another thread, a process.  This module says what a run on Unix can be
waiting for.  Every step counted here is *granted*: the OS does what it is asked, a thread
that is to be started starts, the callback returns.  A measure of what a run has still to
do goes down with each of them, so a run that waits for nothing comes to its end.

## Main definitions

* `Label.granted` — a step that a thread makes of its own accord and the OS grants.
* `Run.rank` — what a run has still to do.
* `Stuck` — what it can be waiting for: the root, or a process that holds a pipe.

## Main results

* `advances_or_stuck` — **a run that has not been left makes a granted step that lowers its
  rank, or is stuck**, mutex and callback aside.
* `callers_settle` — a call of `cancel()` that is under way comes to its end.
-/

namespace AerCore

variable {ι : Type*}

/-! ### Granted steps -/

/-- The call was not refused. -/
def Reply.granted : Reply → Bool
  | .present | .absent => true
  | .error _ => false

/-- No signal and no probe is refused. -/
def KillAct.granted : KillAct → Bool
  | .term x | .termPid x | .probe x | .kill x | .killPid x | .terminate x => x.granted
  | .clock _ => true

/-- No OS call of `spawn` fails. -/
def SpawnAct.granted : SpawnAct → Bool
  | .createJob x | .setInfo x | .assign x | .waitChild x => x.isOk
  | .command x => x.isOk
  | .killChild x => x.granted

/-- The call was not interrupted by a signal. -/
def WaitpidReply.granted : WaitpidReply → Bool
  | .returned => true
  | .interrupted => false

/-- The callback returns, and every thread starts. -/
def MainAct.granted : MainAct → Bool
  | .spawn a => a.granted
  | .startedPanics | .chunkPanics | .exitedPanics => false
  | .startMonitor ok | .startWait ok => ok
  | .probe x => x.granted
  | .kill a | .guardKill a => a.granted
  | .guardReap x => x.granted
  | _ => true

/-- The drain threads start, and `child.wait()` does not fail. -/
def WaitAct.granted : WaitAct → Bool
  | .startOut ok | .startErr ok => ok
  | .childWait x => x.isOk
  | .killTree x => x.granted
  | .joinOut | .joinErr | .send | .exit => true

/-- No read fails or is interrupted. -/
def DrainAct.granted : DrainAct → Bool
  | .read (.bytes _) | .read .eof | .send => true
  | .read .interrupted | .read (.error _) => false

/-- A step that a thread of the program makes of its own accord and the OS grants.  No
process moves, no deadline passes, and nobody begins a call of `cancel()`. -/
def Label.granted : Label ι → Bool
  | .main _ a => a.granted
  | .monitor _ (.probe x) => x.granted
  | .monitor _ (.kill a) => a.granted
  | .monitor _ .deadline => false
  | .monitor _ _ => true
  | .wait _ a => a.granted
  | .drain _ _ a => a.granted
  | .cancel _ (.probe _ x) => x.granted
  | .cancel _ (.kill _ a) => a.granted
  | .cancel _ (.swap _) => false
  | .cancel _ _ => true
  | .proc _ _ => false

theorem Reply.exists_granted (target refused : Bool) :
    ∃ x : Reply, x.granted = true ∧ x.fits target refused = true := by
  cases target with
  | true => exact ⟨.present, rfl, rfl⟩
  | false => exact ⟨.absent, rfl, rfl⟩

/-! ### The measure -/

/-- What a call of `tree_alive` has still to do. -/
def ProbePc.rank : ProbePc → ℕ
  | .group => 1
  | .pid | .query => 0

/-- What a call of `kill_escalating` has still to do once the grace period is over. -/
def KillPc.rank : KillPc → ℕ
  | .term => 8
  | .termPid => 7
  | .poll p => 5 + p.rank
  | .clock => 4
  | .kill => 3
  | .killPid | .terminate => 2
  | .done _ => 0

/-- What a run thread has still to do. -/
def MainPc.rank : MainPc → ℕ
  | .spawn _ => 43
  | .toRunning _ => 42
  | .inStarted => 41
  | .wire => 40
  | .loadCancelled => 39
  | .loadFired => 38
  | .probe p => 36 + p.rank
  | .fire => 35
  | .kill k => 26 + k.rank
  | .startMonitor => 25
  | .openChannel => 24
  | .dropTx => 23
  | .startWait | .callWait => 22
  | .inChunk => 21
  | .pump => 20
  | .recvWait | .inWait => 19
  | .joinWait _ => 18
  | .clear _ => 17
  | .stopMonitor _ => 16
  | .loadTimedOut _ => 15
  | .loadKillFired _ _ => 14
  | .toExited _ _ _ => 13
  | .inExited _ _ => 12
  | .leave _ => 11
  | .guardKill k _ => 2 + k.rank
  | .guardReap _ => 1
  | .finished _ => 0

/-- What a call of `wait` has still to do. -/
def WaitPc.rank : WaitPc → ℕ
  | .idle => 9
  | .startOut => 8
  | .startErr => 7
  | .childWait => 6
  | .killTree _ => 5
  | .joinOut _ => 4
  | .joinErr _ => 3
  | .returned _ => 2
  | .sent => 1
  | .ended | .panicked => 0

/-- What a drain thread has still to do, the bytes in the pipe apart. -/
def DrainPc.rank : DrainPc → ℕ
  | .idle => 2
  | .sending _ => 4
  | .reading => 1
  | .done => 0

/-- What a run has still to do: a byte in a pipe has to be read, sent, received and handed
to the callback. -/
def Run.rank (r : Run) : ℕ :=
  r.main.rank + r.waiter.pc.rank + r.output.stdout.pc.rank + r.output.stderr.pc.rank +
    2 * r.output.chunks.queue.length + 4 * (r.tree.outBuf.length + r.tree.errBuf.length)

/-- What a call of `cancel()` has still to do. -/
def Caller.rank : Caller ι → ℕ
  | .idle => 0
  | .unlock => 1
  | .kill _ k => 2 + k.rank
  | .fire _ => 11
  | .probe _ p => 12 + p.rank
  | .lock => 14

/-! ### Probes and kills -/

section Steps

variable {env : Env} {c : RunConfig} {i : ι} {ch : CancelHandle ι} {r : Run} {t : Tree}

theorem treeAliveStep_granted (env : Env) (t : Tree) (p : ProbePc) :
    ∃ x n, x.granted = true ∧ treeAliveStep env t p x = some n ∧
      ∀ p', n = .inl p' → p'.rank < p.rank := by
  have hrank : ∀ {n : ProbePc ⊕ Bool} {x : Reply}, treeAliveStep env t p x = some n →
      ∀ p', n = .inl p' → p'.rank < p.rank := by
    rintro n x hn p' rfl
    obtain ⟨rfl, rfl, -⟩ := treeAliveStep_eq_more hn
    decide
  cases p with
  | group =>
    obtain ⟨x, hx, hfits⟩ := Reply.exists_granted t.groupExists (t.groupExists && !env.permitted)
    have hn : treeAliveStep env t .group x =
        some (if x = .absent then .inl .pid else .inr true) := by
      simp [treeAliveStep, Tree.groupReply, hfits]
    exact ⟨x, _, hx, hn, hrank hn⟩
  | pid =>
    obtain ⟨x, hx, hfits⟩ := Reply.exists_granted t.pidExists (t.pidExists && !env.permitted)
    have hn : treeAliveStep env t .pid x = some (.inr (decide (x ≠ .absent))) := by
      simp [treeAliveStep, Tree.pidReply, hfits]
    exact ⟨x, _, hx, hn, hrank hn⟩
  | query =>
    obtain ⟨x, hx, hfits⟩ := Reply.exists_granted t.groupLive (!env.permitted)
    have hn : treeAliveStep env t .query x = some (.inr (decide (x ≠ .absent))) := by
      simp [treeAliveStep, hfits]
    exact ⟨x, _, hx, hn, hrank hn⟩

/-- A call of `kill_escalating` that has not returned goes on, and comes closer to its end
if the grace period is over. -/
theorem killEscalatingStep_granted (env : Env) (grace : Grace) (t : Tree) {k : KillPc}
    (hk : ∀ res, k ≠ .done res) :
    ∃ a t' k', a.granted = true ∧ killEscalatingStep env grace t k a = some (t', k') ∧
      k'.rank < k.rank := by
  suffices h : ∃ a t' k', a.granted = true ∧ KillMove env grace t k a t' k' ∧ k'.rank < k.rank by
    obtain ⟨a, t', k', ha, hmove, hlt⟩ := h
    exact ⟨a, t', k', ha, hmove.step, hlt⟩
  have hgroup : t.groupReply env .present = true ∨ t.groupReply env .absent = true := by
    cases h : t.groupExists <;> simp [Tree.groupReply, Reply.fits, h]
  have hpid : t.pidReply env .present = true ∨ t.pidReply env .absent = true := by
    cases h : t.pidExists <;> simp [Tree.pidReply, Reply.fits, h]
  cases k with
  | term =>
    rcases hgroup with hx | hx
    · exact ⟨_, _, _, rfl, .termPresent hx, by decide⟩
    · exact ⟨_, _, _, rfl, .termAbsent hx, by decide⟩
  | termPid =>
    rcases hpid with hx | hx
    · exact ⟨.termPid .present, _, _, rfl, .termPid hx, by decide⟩
    · exact ⟨.termPid .absent, _, _, rfl, .termPid hx, by decide⟩
  | poll p =>
    obtain ⟨x, n, hx, hn, hrank⟩ := treeAliveStep_granted env t p
    rcases n with p' | _ | _
    · exact ⟨.probe x, _, _, hx, .probeMore hn, by simpa [KillPc.rank] using hrank p' rfl⟩
    · exact ⟨.probe x, _, _, hx, .probeDead hn, by simp only [KillPc.rank]; omega⟩
    · exact ⟨.probe x, _, _, hx, .probeAlive hn, by simp only [KillPc.rank]; omega⟩
  | clock => exact ⟨_, _, _, rfl, .expired, by decide⟩
  | kill =>
    rcases hgroup with hx | hx
    · exact ⟨_, _, _, rfl, .killPresent hx, by decide⟩
    · exact ⟨_, _, _, rfl, .killAbsent hx, by decide⟩
  | killPid =>
    rcases hpid with hx | hx
    · exact ⟨_, _, _, rfl, .killPidPresent hx, by decide⟩
    · exact ⟨_, _, _, rfl, .killPidFails hx (by simp), by decide⟩
  | terminate => exact ⟨.terminate .present, _, _, rfl, .terminate rfl (by simp), by decide⟩
  | done res => exact absurd rfl (hk res)

/-! ### One run -/

/-- A granted step of the run thread, of `wait` or of a drain thread lowers the rank. -/
inductive Advances (env : Env) (c : RunConfig) (i : ι) (hd : CancelHandle ι) (r : Run) : Prop
  | main {a hd' r'} (granted : a.granted = true) (h : MainMove env c i hd r a hd' r')
      (lt : r'.rank < r.rank)
  | wait {a t o x} (granted : a.granted = true)
      (h : WaitMove env c.captureOutput r.tree r.output r.waiter a t o x)
      (lt : Run.rank { r with tree := t, output := o, waiter := x } < r.rank)
  | drain {s a t o} (granted : a.granted = true)
      (h : DrainMove c.captureOutput s r.tree r.output a t o)
      (lt : Run.rank { r with tree := t, output := o } < r.rank)

/-- A drain thread has nothing to read from a pipe that a live process holds. -/
def Starved (r : Run) (s : Stream) : Prop :=
  (r.output.drain s).pc = .reading ∧ r.tree.buf s = [] ∧ r.tree.held s = true

/-- What a run on Unix can be waiting for. -/
inductive Stuck (c : RunConfig) (r : Run) : Prop
  /-- The root runs, and its drain threads have nothing to do. -/
  | root (main : r.main.awaits = true) (pc : r.waiter.pc = .childWait)
      (live : r.tree.root = .live)
      (drains : ∀ s, (r.output.drain s).pc = .done ∨ Starved r s)
  /-- `wait` joins a drain thread whose pipe is held. -/
  | join {s} (main : r.main.awaits = true)
      (pc : ∃ res, r.waiter.pc = .joinOut res ∨ r.waiter.pc = .joinErr res) (drain : Starved r s)
  /-- `wait` has panicked, and the drain thread it leaves behind has a sender. -/
  | pump {s} (main : r.main = .pump) (pc : r.waiter.pc = .panicked) (drain : Starved r s)
  /-- The guard waits for the root. -/
  | guard {o} (main : r.main = .guardReap o) (live : r.tree.root = .live)

theorem bufs_of_killEscalating {grace : Grace} {t' : Tree} {k k' : KillPc} {a : KillAct}
    (h : killEscalatingStep env grace t k a = some (t', k')) :
    t'.outBuf = t.outBuf ∧ t'.errBuf = t.errBuf := by
  rcases killEscalatingStep_tree h with rfl | ⟨status, rfl⟩ | ⟨status, rfl⟩
  · exact ⟨rfl, rfl⟩
  · exact ⟨rfl, rfl⟩
  · unfold Tree.killRoot
    split <;> exact ⟨rfl, rfl⟩

theorem ChunkChan.length_send (ch : ChunkChan) (m : ChunkMsg) :
    (ch.send m).queue.length ≤ ch.queue.length + 1 := by
  unfold ChunkChan.send
  split <;> simp

/-- A drain thread that is at work goes on, unless its pipe is empty and held. -/
theorem drain_advances {s : Stream} (hidle : (r.output.drain s).pc ≠ .idle)
    (hdone : (r.output.drain s).pc ≠ .done) : Advances env c i ch r ∨ Starved r s := by
  cases hpc : (r.output.drain s).pc with
  | idle => exact absurd hpc hidle
  | done => exact absurd hpc hdone
  | sending bs =>
    refine .inl (.drain rfl (.send hpc) ?_)
    have hlen := ChunkChan.length_send r.output.chunks (s.makeMsg (r.output.drain s).seq bs)
    cases s <;> simp_all [Run.rank, Output.setDrain, Output.drain, DrainPc.rank] <;> omega
  | reading =>
    cases hbuf : r.tree.buf s with
    | cons b rest =>
      refine .inl (.drain (a := .read (.bytes [b])) rfl
        (.readBytes hpc (by simp) (by simp [bufSize]) (by simp [hbuf])) ?_)
      cases s <;> cases hc : c.captureOutput <;>
        simp_all [Run.rank, Output.setDrain, Output.drain, DrainPc.rank, Tree.setBuf, Tree.buf] <;>
        omega
    | nil =>
      cases hheld : r.tree.held s with
      | true => exact .inr ⟨hpc, hbuf, hheld⟩
      | false =>
        refine .inl (.drain rfl (.readEof hpc hbuf hheld) ?_)
        cases s <;> simp_all [Run.rank, Output.endDrain, Output.setDrain, Output.drain,
          DrainPc.rank, ChunkChan.dropTx]

theorem bufs_of_killTree {t' : Tree} {x : Reply} (h : killTree env t x = some t') :
    t'.outBuf = t.outBuf ∧ t'.errBuf = t.errBuf := by
  unfold killTree at h
  split at h <;> obtain ⟨-, h⟩ := Option.ite_none_right_eq_some.mp h <;> cases h <;>
    split <;> exact ⟨rfl, rfl⟩

theorem killTree_granted (env : Env) (t : Tree) :
    ∃ x t', x.granted = true ∧ killTree env t x = some t' := by
  cases hp : env.platform with
  | unix =>
    obtain ⟨x, hx, hfits⟩ := Reply.exists_granted t.groupExists (t.groupExists && !env.permitted)
    exact ⟨x, _, hx, by simp [killTree, hp, Tree.groupReply, hfits]; rfl⟩
  | windows => exact ⟨.present, _, rfl, by simp [killTree, hp, Reply.fits]; rfl⟩

/-- `child.wait()` has returned, and `wait` has its cleaning up to do or its answer to give. -/
def WaitPc.closing : WaitPc → Bool
  | .killTree _ | .joinOut _ | .joinErr _ | .returned _ | .sent => true
  | _ => false

/-- After `child.wait()` a call of `wait` goes on, unless a drain thread it joins is kept. -/
theorem closing_advances (hd : r.waiter.pc.Drained r.output) (hpc : r.waiter.pc.closing = true)
    (hret : ∀ res, r.waiter.pc = .returned res → c.captureOutput = true) :
    Advances env c i ch r ∨
      ∃ s, (∃ res, r.waiter.pc = .joinOut res ∨ r.waiter.pc = .joinErr res) ∧ Starved r s := by
  cases pc : r.waiter.pc with
  | idle | startOut | startErr | childWait | ended | panicked => rw [pc] at hpc; cases hpc
  | killTree res =>
    obtain ⟨x, t', hx, ht⟩ := killTree_granted env r.tree
    refine .inl (.wait (a := .killTree x) hx (.killTree pc ht) ?_)
    obtain ⟨ho, he⟩ := bufs_of_killTree ht
    simp only [Run.rank, pc, WaitPc.rank, ho, he]
    omega
  | joinOut res =>
    rw [pc] at hd
    by_cases hdone : r.output.stdout.pc = .done
    · refine .inl (.wait rfl (.joinOut pc hdone) ?_)
      simp only [Run.rank, pc, WaitPc.rank]
      omega
    · exact (drain_advances (s := .stdout) hd.1 hdone).imp id fun hst => ⟨_, ⟨res, .inl rfl⟩, hst⟩
  | joinErr res =>
    rw [pc] at hd
    by_cases hdone : r.output.stderr.pc = .done
    · refine .inl (.wait rfl (.joinErr pc hdone) ?_)
      simp only [Run.rank, pc, WaitPc.rank]
      omega
    · exact (drain_advances (s := .stderr) hd.2 hdone).imp id fun hst => ⟨_, ⟨res, .inr rfl⟩, hst⟩
  | returned res =>
    refine .inl (.wait rfl (.send pc (hret res pc)) ?_)
    simp only [Run.rank, pc, WaitPc.rank]
    omega
  | sent =>
    refine .inl (.wait rfl (.exit pc) ?_)
    simp only [Run.rank, pc, WaitPc.rank]
    omega

theorem MainPc.underway_of_awaits {m : MainPc} (h : m.awaits = true) : m.underway = true := by
  cases m <;> first | rfl | cases h

/-- A call of `wait` goes on until it has its answer, unless the root runs or a drain thread
it joins is kept. -/
theorem wait_advances (hu : env.platform = .unix) (hd : r.waiter.pc.Drained r.output)
    (hs : Standing c r) (hr : Rooted r) (hm : r.main.awaits = true)
    (hended : r.waiter.pc ≠ .ended) (hpan : r.waiter.pc ≠ .panicked)
    (hret : ∀ res, r.waiter.pc = .returned res → c.captureOutput = true) :
    Advances env c i ch r ∨ Stuck c r := by
  have hclosing : r.waiter.pc.closing = true → Advances env c i ch r ∨ Stuck c r := fun hpc =>
    (closing_advances hd hpc hret).imp id fun ⟨_, hjoins, hst⟩ => .join hm hjoins hst
  cases pc : r.waiter.pc with
  | idle => exact absurd pc (hs.called hm)
  | ended => exact absurd pc hended
  | panicked => exact absurd pc hpan
  | startOut =>
    rw [pc] at hd
    refine .inl (.wait rfl (.startOut pc) ?_)
    simp only [Run.rank, pc, WaitPc.rank, hd.1, DrainPc.rank]
    omega
  | startErr =>
    rw [pc] at hd
    refine .inl (.wait rfl (.startErr pc) ?_)
    simp only [Run.rank, pc, WaitPc.rank, hd.2, DrainPc.rank]
    omega
  | childWait =>
    rw [pc] at hd
    have hunder := MainPc.underway_of_awaits hm
    cases hroot : r.tree.root with
    | unborn => exact absurd hroot (hr.led hunder).1
    | reaped status =>
      have hreap := hr.unreaped hunder (by rw [pc]; rfl)
      simp [Tree.rootReaped, hroot] at hreap
    | zombie status =>
      refine .inl (.wait rfl (.childWait pc hroot) ?_)
      simp only [Run.rank, pc, WaitPc.afterChildWait, hu, WaitPc.rank]
      omega
    | live =>
      -- nothing is left to do for `wait`; the drain threads may have work
      have hdrain : ∀ s, Advances env c i ch r ∨ (r.output.drain s).pc = .done ∨ Starved r s := by
        intro s
        by_cases hdone : (r.output.drain s).pc = .done
        · exact .inr (.inl hdone)
        · refine (drain_advances ?_ hdone).imp id .inr
          cases s
          · exact hd.1
          · exact hd.2
      rcases hdrain .stdout with h | hout
      · exact .inl h
      rcases hdrain .stderr with h | herr
      · exact .inl h
      refine .inr (.root hm pc hroot fun s => ?_)
      cases s
      · exact hout
      · exact herr
  | killTree | joinOut | joinErr | returned | sent => exact hclosing (by rw [pc]; rfl)

/-- A step that moves nothing but the run thread. -/
theorem rank_lt_of_main {r' : Run} (hm : r'.main.rank < r.main.rank) (hw : r'.waiter = r.waiter)
    (ho : r'.output = r.output) (ht : r'.tree = r.tree) : r'.rank < r.rank := by
  simp only [Run.rank, hw, ho, ht]
  omega

/-- The run thread goes on from the answer of `wait`. -/
theorem rank_afterWait {res : Except AerError ℤ} (hm : 18 ≤ r.main.rank) :
    (r.afterWait c res).rank < r.rank := by
  have hrank : (r.afterWait c res).main.rank < 18 := by
    cases res with
    | ok code => simp only [Run.afterWait]; split <;> simp [MainPc.rank]
    | error e => simp [Run.afterWait, MainPc.rank]
  cases res with
  | ok code | error e =>
    simp only [Run.rank, Run.afterWait] at hrank ⊢
    omega

/-- The run thread pumps chunks while there are some, and then waits for a sender that is not
its own. -/
theorem pump_advances_or_tx (hs : Standing c r) (hm : r.main = .pump) :
    Advances env c i ch r ∨ ∃ s, r.output.chunks.tx s = true := by
  cases hq : r.output.chunks.queue with
  | cons m q =>
    refine .inl (.main rfl (.recv hm hq) ?_)
    simp only [Run.rank, hm, hq, MainPc.rank, List.length_cons]
    omega
  | nil =>
    by_cases hclosed : r.output.chunks.closed = true
    · refine .inl (.main rfl (.recvClosed hm hq hclosed) ?_)
      simp only [Run.rank, hm, MainPc.rank]
      omega
    · have htxRun := hs.txRun (by rw [hm]; rfl)
      refine .inr ?_
      cases ho : r.output.chunks.txOut with
      | true => exact ⟨.stdout, ho⟩
      | false =>
        refine ⟨.stderr, ?_⟩
        simpa [ChunkChan.closed, ChunkChan.tx, htxRun, ho] using hclosed

/-- The run thread pumps until every sender is gone. -/
theorem pump_advances (hu : env.platform = .unix) (hd : r.waiter.pc.Drained r.output)
    (hs : Standing c r) (hr : Rooted r) (hcap : c.captureOutput = true) (hm : r.main = .pump) :
    Advances env c i ch r ∨ Stuck c r := by
  rcases pump_advances_or_tx hs hm with h | ⟨s, htx⟩
  · exact .inl h
  obtain ⟨hdone, hidle⟩ := hs.senders s htx
  by_cases hpan : r.waiter.pc = .panicked
  · exact (drain_advances (fun hi => hidle hi hpan) hdone).imp id fun hst => .pump hm hpan hst
  · refine wait_advances hu hd hs hr (by rw [hm]; rfl) ?_ hpan fun _ _ => hcap
    intro hended
    rw [hended] at hd
    cases s
    · exact hdone hd.1
    · exact hdone hd.2

/-- Without capture the run thread takes the answer of `wait` where it is given. -/
theorem inWait_advances (hu : env.platform = .unix) (hd : r.waiter.pc.Drained r.output)
    (hs : Standing c r) (hr : Rooted r) (hcap : c.captureOutput = false) (hm : r.main = .inWait) :
    Advances env c i ch r ∨ Stuck c r := by
  by_cases hpan : r.waiter.pc = .panicked
  · refine .inl (.main rfl (.waitPanicked hm hpan) ?_)
    simp only [Run.rank, hm, MainPc.rank]
    omega
  by_cases hret : ∃ res, r.waiter.pc = .returned res
  · obtain ⟨res, hres⟩ := hret
    refine .inl (.main rfl (.waitReturned hm hres) ?_)
    exact rank_afterWait (by rw [hm]; decide)
  · refine wait_advances hu hd hs hr (by rw [hm]; rfl) (fun hended => ?_) hpan fun res hres => ?_
    · rw [(hs.sent (.inr hended)).1] at hcap
      cases hcap
    · exact absurd ⟨res, hres⟩ hret

/-- The run thread takes the message of the wait thread, or learns that there is none. -/
theorem recvWait_advances (hu : env.platform = .unix) (hd : r.waiter.pc.Drained r.output)
    (hs : Standing c r) (hr : Rooted r) (hcap : c.captureOutput = true)
    (hm : r.main = .recvWait) : Advances env c i ch r ∨ Stuck c r := by
  have hawaits : r.main.awaits = true := by rw [hm]; rfl
  cases hmsg : r.waiter.msg with
  | some res =>
    refine .inl (.main rfl (.recvWait hm hmsg) ?_)
    simp only [Run.rank, hm, MainPc.rank]
    omega
  | none =>
    by_cases hpan : r.waiter.pc = .panicked
    · refine .inl (.main rfl (.recvWaitLost hm hmsg hpan) ?_)
      simp only [Run.rank, hm, MainPc.rank]
      omega
    · refine wait_advances hu hd hs hr hawaits (fun hended => ?_) hpan fun _ _ => hcap
      exact (hs.sent (.inr hended)).2 hawaits hmsg

/-- The call of `kill_escalating` the run thread is in. -/
def MainPc.killing? : MainPc → Option KillPc
  | .kill k | .guardKill k _ => some k
  | _ => none

/-- The run thread waits for the slot mutex. -/
def MainPc.locks : MainPc → Bool
  | .wire | .clear _ => true
  | _ => false

/-- **A run that has not been left goes on, or is stuck**, the slot mutex aside. -/
theorem advances_or_stuck (hu : env.platform = .unix) (hl : Lifecycle c r)
    (ha : Answered env r) (hd : r.waiter.pc.Drained r.output) (hs : Standing c r) (hr : Rooted r)
    (hkill : ∀ k, r.main.killing? = some k → ∀ res, k ≠ .done res)
    (hfree : r.main.locks = true → ch.locked = false) (hfin : ∀ o, r.main ≠ .finished o) :
    Advances env c i ch r ∨ Stuck c r := by
  cases hm : r.main with
  | pump => exact pump_advances hu hd hs hr (hl.path true (by rw [hm]; rfl)) hm
  | recvWait => exact recvWait_advances hu hd hs hr (hl.path true (by rw [hm]; rfl)) hm
  | inWait => exact inWait_advances hu hd hs hr (hl.path false (by rw [hm]; rfl)) hm
  | guardReap o =>
    cases hroot : r.tree.root with
    | unborn => exact absurd hroot (hr.led (by rw [hm]; rfl)).1
    | live => exact .inr (.guard hm hroot)
    | zombie status =>
      have hreap : reapAbandoned env r.tree .returned =
          some { r.tree with root := .reaped status } := by
        simp [reapAbandoned, hu, Tree.reapRoot, hroot]
      refine .inl (.main rfl (.guardReap hm hreap) ?_)
      simp only [Run.rank, hm, MainPc.rank]
      omega
    | reaped status =>
      have hreap : reapAbandoned env r.tree .returned = some r.tree := by
        simp [reapAbandoned, hu, Tree.reapRoot, hroot]
      refine .inl (.main rfl (.guardReap hm hreap) ?_)
      exact rank_lt_of_main (by simp [hm, MainPc.rank]) rfl rfl rfl
  | finished o => exact absurd hm (hfin o)
  | joinWait res =>
    refine .inl ?_
    rcases hs.received res hm with hpc | hpc
    · refine .wait rfl (.exit hpc) ?_
      simp only [Run.rank, hpc, WaitPc.rank]
      omega
    · exact .main rfl (.joinWait hm hpc) (rank_afterWait (by simp [hm, MainPc.rank]))
  | spawn s =>
    obtain rfl := hr.spawning s hm
    have hspawn : spawnStep env r.tree .command (.command (.ok 0)) =
        some (Tree.spawned true, .ok 0) := by simp [spawnStep, hu]
    refine .inl (.main rfl (.spawnOk hm hspawn) ?_)
    simp only [Run.rank, hm, MainPc.rank, Tree.spawned, List.length_nil]
    omega
  | toRunning pid =>
    cases ht : r.machine.transition .running with
    | ok m =>
      refine .inl (.main rfl (.started hm ht) ?_)
      exact rank_lt_of_main (by simp [hm, MainPc.rank]) rfl rfl rfl
    | error e =>
      refine .inl (.main rfl (.startedRefused hm ht) ?_)
      exact rank_lt_of_main (by simp [hm, MainPc.rank]) rfl rfl rfl
  | inStarted =>
    refine .inl (.main rfl (.startedReturns hm) ?_)
    cases hc : c.cancel <;> simp [Run.rank, hm, MainPc.rank]
  | wire =>
    refine .inl (.main rfl (.wire hm (hfree (by rw [hm]; rfl))) ?_)
    exact rank_lt_of_main (by simp [hm, MainPc.rank]) rfl rfl rfl
  | loadCancelled =>
    refine .inl (.main rfl (.loadCancelled hm) ?_)
    cases ch.cancelled <;> simp [Run.rank, hm, MainPc.rank]
  | loadFired =>
    refine .inl (.main rfl (.loadFired hm) ?_)
    cases ch.killFired <;> simp [Run.rank, hm, MainPc.rank, hu, ProbePc.entry, ProbePc.rank]
  | probe p =>
    obtain ⟨x, n, hx, hn, hrank⟩ := treeAliveStep_granted env r.tree p
    rcases n with p' | _ | _
    · refine .inl (.main (a := .probe x) hx (.probeMore hm hn) ?_)
      have := hrank p' rfl
      simp only [Run.rank, hm, MainPc.rank]
      omega
    · refine .inl (.main (a := .probe x) hx (.probeDead hm hn) ?_)
      simp only [Run.rank, hm, MainPc.rank]
      omega
    · refine .inl (.main (a := .probe x) hx (.probeAlive hm hn) ?_)
      simp only [Run.rank, hm, MainPc.rank]
      omega
  | fire =>
    refine .inl (.main rfl (.fire hm) ?_)
    simp only [Run.rank, hm, MainPc.rank, hu, KillPc.entry, KillPc.rank]
    omega
  | kill k =>
    obtain ⟨a, t', k', ha, hk, hlt⟩ :=
      killEscalatingStep_granted env .killGrace r.tree (hkill k (by rw [hm]; rfl))
    obtain ⟨ho, he⟩ := bufs_of_killEscalating hk
    by_cases hdone : ∃ res, k' = .done res
    · obtain ⟨res, rfl⟩ := hdone
      refine .inl (.main (a := .kill a) ha (.killDone hm hk) ?_)
      simp only [Run.rank, hm, MainPc.rank, ho, he]
      omega
    · refine .inl (.main (a := .kill a) ha (.killMore hm hk (by simpa using hdone)) ?_)
      simp only [Run.rank, hm, MainPc.rank, ho, he]
      omega
  | guardKill k o =>
    obtain ⟨a, t', k', ha, hk, hlt⟩ :=
      killEscalatingStep_granted env .zero r.tree (hkill k (by rw [hm]; rfl))
    obtain ⟨ho, he⟩ := bufs_of_killEscalating hk
    by_cases hdone : ∃ res, k' = .done res
    · obtain ⟨res, rfl⟩ := hdone
      refine .inl (.main (a := .guardKill a) ha (.guardDone hm hk) ?_)
      simp only [Run.rank, hm, MainPc.rank, ho, he]
      omega
    · refine .inl (.main (a := .guardKill a) ha (.guardMore hm hk (by simpa using hdone)) ?_)
      simp only [Run.rank, hm, MainPc.rank, ho, he]
      omega
  | startMonitor =>
    cases ht : c.timeout with
    | some ms =>
      refine .inl (.main rfl (.startMonitor hm (by simp [ht])) ?_)
      cases hc : c.captureOutput <;> simp [Run.rank, hm, MainPc.rank, RunConfig.afterMonitor, hc]
    | none =>
      refine .inl (.main rfl (.noMonitor hm ht) ?_)
      cases hc : c.captureOutput <;> simp [Run.rank, hm, MainPc.rank, RunConfig.afterMonitor, hc]
  | openChannel =>
    refine .inl (.main rfl (.openChannel hm) ?_)
    simp only [Run.rank, hm, MainPc.rank, List.length_nil]
    omega
  | dropTx =>
    refine .inl (.main rfl (.dropTx hm) ?_)
    simp only [Run.rank, hm, MainPc.rank]
    omega
  | startWait =>
    refine .inl (.main rfl (.startWait hm) ?_)
    simp only [Run.rank, hm, MainPc.rank, ha.before (by rw [hm]; rfl), WaitPc.rank]
    omega
  | callWait =>
    refine .inl (.main rfl (.callWait hm) ?_)
    simp only [Run.rank, hm, MainPc.rank, ha.before (by rw [hm]; rfl), WaitPc.rank]
    omega
  | inChunk =>
    refine .inl (.main rfl (.chunkReturns hm) ?_)
    exact rank_lt_of_main (by simp [hm, MainPc.rank]) rfl rfl rfl
  | clear code =>
    refine .inl (.main rfl (.clear hm (hfree (by rw [hm]; rfl))) ?_)
    exact rank_lt_of_main (by simp [hm, MainPc.rank]) rfl rfl rfl
  | stopMonitor code =>
    refine .inl (.main rfl (.stopMonitor hm) ?_)
    exact rank_lt_of_main (by simp [hm, MainPc.rank]) rfl rfl rfl
  | loadTimedOut code =>
    refine .inl (.main rfl (.loadTimedOut hm) ?_)
    exact rank_lt_of_main (by simp [hm, MainPc.rank]) rfl rfl rfl
  | loadKillFired code t =>
    refine .inl (.main rfl (.loadKillFired hm) ?_)
    exact rank_lt_of_main (by simp [hm, MainPc.rank]) rfl rfl rfl
  | toExited code t cn =>
    cases ht : r.machine.transition .exited with
    | ok m =>
      refine .inl (.main rfl (.exited hm ht) ?_)
      exact rank_lt_of_main (by simp [hm, MainPc.rank]) rfl rfl rfl
    | error e =>
      refine .inl (.main rfl (.exitedRefused hm ht) ?_)
      exact rank_lt_of_main (by simp [hm, MainPc.rank]) rfl rfl rfl
  | inExited t cn =>
    refine .inl (.main rfl (.exitedReturns hm) ?_)
    exact rank_lt_of_main (by simp [hm, MainPc.rank]) rfl rfl rfl
  | leave o =>
    refine .inl (.main rfl (.dropLocals hm) ?_)
    cases r.armed <;> simp [Run.rank, hm, MainPc.rank, hu, KillPc.entry, KillPc.rank]

end Steps

/-! ### Whole runs -/

section Runs

variable [DecidableEq ι] {env : Env} {cfg : ι → RunConfig} {tr : List (Label ι)} {w : World ι}
  {i : ι}

/-- The call of `kill_escalating` a caller is in. -/
def Caller.killing? : Caller ι → Option KillPc
  | .kill _ k => some k
  | _ => none

omit [DecidableEq ι] in
theorem KillPc.entry_running (pl : Platform) (res : Except AerError Unit) :
    KillPc.entry pl ≠ .done res := by
  cases pl <;> simp [KillPc.entry]

omit [DecidableEq ι] in
theorem MainMove.running {c : RunConfig} {ch ch' : CancelHandle ι} {r r' : Run} {a : MainAct}
    (h : MainMove env c i ch r a ch' r') {k : KillPc} (hk : r'.main.killing? = some k) :
    ∀ res, k ≠ .done res := by
  cases h with
  | fire => cases hk; exact KillPc.entry_running env.platform
  | killMore _ _ more | guardMore _ _ more => cases hk; exact more
  | dropLocals =>
    simp only at hk
    split at hk
    · cases hk; exact KillPc.entry_running env.platform
    · cases hk
  | startedReturns | loadCancelled | loadFired =>
    simp only at hk
    split at hk <;> cases hk
  | startMonitor | noMonitor =>
    simp only [RunConfig.afterMonitor] at hk
    split at hk <;> cases hk
  | @joinWait res | @waitReturned res =>
    cases res with
    | ok code =>
      simp only [Run.afterWait] at hk
      split at hk <;> cases hk
    | error e => cases hk
  | _ => cases hk

/-- A run thread that is in `kill_escalating` has not come back from it. -/
theorem main_running (h : Reaches env cfg tr w) {k : KillPc}
    (hk : (w.runs i).main.killing? = some k) : ∀ res, k ≠ .done res := by
  refine Lts.exec_invariant (P := fun _ w => ∀ k, (w.runs i).main.killing? = some k →
    ∀ res, k ≠ .done res) ?_ ?_ h k hk
  · intro k hk
    cases hk
  · intro _ w l w' hw ih hstep k hk
    rcases mainMove_or_stays hstep i with ⟨a, -, hmove⟩ | ⟨-, hm⟩
    · exact hmove.running hk
    · exact ih k (hm ▸ hk)

/-- Neither has a call of `cancel()`. -/
theorem caller_running (h : Reaches env cfg tr w) {q : CallerId ι} {k : KillPc}
    (hk : (w.callers q).killing? = some k) : ∀ res, k ≠ .done res := by
  refine Lts.exec_invariant (P := fun _ w => ∀ k, (w.callers q).killing? = some k →
    ∀ res, k ≠ .done res) ?_ ?_ h k hk
  · intro k hk
    cases hk
  · intro _ w l w' hw ih hstep k hk
    cases handleMove_of_step hstep with
    | inner _ _ hc => exact ih k (hc ▸ hk)
    | main => exact ih k hk
    | @cancel q' a _ h =>
      by_cases hq : q = q'
      · subst hq
        cases h with
        | fire =>
          rw [setCaller_callers_self] at hk
          cases hk
          exact KillPc.entry_running env.platform
        | killMore _ _ more =>
          rw [setCaller_callers_self] at hk
          cases hk
          exact more
        | _ =>
          rw [setCaller_callers_self] at hk
          cases hk
      · exact ih k (h.callers_ne hq ▸ hk)

/-- A call of `cancel()` that is under way goes on, and comes closer to its end if the grace
period is over. -/
theorem caller_advances (h : Reaches env cfg tr w) {q : CallerId ι} (hq : w.callers q ≠ .idle) :
    ∃ a w', (Label.cancel q a).granted = true ∧ step env cfg w (.cancel q a) = some w' ∧
      (w'.callers q).rank < (w.callers q).rank := by
  suffices hmove : ∃ a w', (Label.cancel q a).granted = true ∧ (∀ was, a ≠ .swap was) ∧
      CancelMove env w q a w' ∧ (w'.callers q).rank < (w.callers q).rank by
    obtain ⟨a, w', ha, hns, hmove, hlt⟩ := hmove
    exact ⟨a, w', ha, hmove.step hns, hlt⟩
  cases pc : w.callers q with
  | idle => exact absurd pc hq
  | lock =>
    -- whoever held the mutex would be another caller under way
    have free : w.handle.locked = false := by
      by_contra hl
      obtain ⟨q', hq'⟩ := exists_holder_of_reaches h (by simpa using hl)
      have hne : w.callers q' ≠ .idle := fun hi => by rw [hi] at hq'; cases hq'
      obtain rfl := (guarded_of_reaches h).sole q' q hne hq
      rw [pc] at hq'
      cases hq'
    cases slot : w.handle.kill with
    | none => exact ⟨_, _, rfl, by simp, .lockEmpty pc free slot, by simp [Caller.rank]⟩
    | some j =>
      refine ⟨_, _, rfl, by simp, .lockWired pc free slot, ?_⟩
      rw [setCaller_callers_self]
      cases env.platform <;> simp [Caller.rank, ProbePc.entry, ProbePc.rank]
  | probe j p =>
    obtain ⟨x, n, hx, hn, hrank⟩ := treeAliveStep_granted env (w.runs j).tree p
    rcases n with p' | _ | _
    · refine ⟨.probe j x, _, hx, by simp, .probeMore pc hn, ?_⟩
      simpa [Caller.rank] using hrank p' rfl
    · exact ⟨.probe j x, _, hx, by simp, .probeDead pc hn, by simp [Caller.rank]; omega⟩
    · exact ⟨.probe j x, _, hx, by simp, .probeAlive pc hn, by simp [Caller.rank]; omega⟩
  | fire j =>
    refine ⟨_, _, rfl, by simp, .fire pc, ?_⟩
    rw [setCaller_callers_self]
    cases env.platform <;> simp [Caller.rank, KillPc.entry, KillPc.rank]
  | kill j k =>
    obtain ⟨a, t', k', ha, hk, hlt⟩ :=
      killEscalatingStep_granted env .killGrace (w.runs j).tree
        (caller_running h (q := q) (by rw [pc]; rfl))
    by_cases hdone : ∃ res, k' = .done res
    · obtain ⟨res, rfl⟩ := hdone
      exact ⟨.kill j a, _, ha, by simp, .killDone pc hk, by simp [Caller.rank]; omega⟩
    · exact ⟨.kill j a, _, ha, by simp, .killMore pc hk (by simpa using hdone),
        by simpa [Caller.rank] using hlt⟩
  | unlock => exact ⟨_, _, rfl, by simp, .unlock pc, by simp [Caller.rank]⟩

/-- A step of a call of `cancel()`. -/
def Label.cancels : Label ι → Bool
  | .cancel _ _ => true
  | _ => false

/-- **Calls of `cancel()` that are under way come to their end**, and keep what their steps
keep. -/
theorem callers_settle {Q : World ι → Prop} (h : Reaches env cfg tr w) (hQ : Q w)
    (keep : ∀ tr w q a w', Reaches env cfg tr w → Q w → (Label.cancel q a).granted = true →
      step env cfg w (.cancel q a) = some w' → Q w') :
    Lts.Leads (step env cfg) (fun l => l.granted = true ∧ l.cancels = true) w
      fun w' => (∃ tr', Reaches env cfg tr' w') ∧ (∀ q, w'.callers q = .idle) ∧ Q w' := by
  by_cases hall : ∀ q, w.callers q = .idle
  · exact .here ⟨⟨tr, h⟩, hall, hQ⟩
  · -- only one of them is under way
    obtain ⟨q, hq⟩ := not_forall.mp hall
    refine Lts.leads_of_measure (fun w => (w.callers q).rank)
      (I := fun w => (∃ tr, Reaches env cfg tr w) ∧ (∀ q', q' ≠ q → w.callers q' = .idle) ∧ Q w)
      ?_ ⟨⟨tr, h⟩, fun q' hne => ?_, hQ⟩
    · rintro w ⟨⟨tr, h⟩, hothers, hQ⟩
      by_cases hq : w.callers q = .idle
      · refine .inl ⟨⟨tr, h⟩, fun q' => ?_, hQ⟩
        by_cases hne : q' = q
        · rw [hne, hq]
        · exact hothers q' hne
      · obtain ⟨a, w', ha, hstep, hlt⟩ := caller_advances h hq
        refine .inr ⟨_, w', ⟨ha, rfl⟩, hstep, ⟨⟨_, Lts.exec_concat_eq_some.mpr ⟨w, h, hstep⟩⟩,
          fun q' hne => ?_, keep tr w q a w' h hQ ha hstep⟩, hlt⟩
        rw [(cancelMove_of_step hstep).callers_ne hne]
        exact hothers q' hne
    · by_contra hne'
      exact hne ((guarded_of_reaches h).sole q' q hne' hq)

/-- A step of the run thread of run `i`, of its `wait` or of one of its drain threads. -/
def Label.attends (i : ι) : Label ι → Bool
  | .main j _ | .wait j _ | .drain j _ _ => decide (j = i)
  | _ => false

/-- A run that advances does so by a step of the system. -/
theorem Advances.step (h : Advances env (cfg i) i w.handle (w.runs i))
    (hback : (w.runs i).main.inCallback = true → w.callers (.callback i) = .idle) :
    ∃ l w', l.granted = true ∧ l.attends i = true ∧ AerCore.step env cfg w l = some w' ∧
      w'.callers = w.callers ∧ w'.handle.locked = w.handle.locked ∧
      (w'.runs i).rank < (w.runs i).rank := by
  cases h with
  | @main a hd' r' granted h lt =>
    refine ⟨.main i a, World.setRun { w with handle := hd' } i r', granted, by simp [Label.attends],
      step_of_mainMove h fun ha => hback (h.edge.inCallback ha), rfl, ?_,
      by rw [setRun_runs_self]; exact lt⟩
    rcases h.handle with hd | ⟨-, -, hd⟩ | ⟨-, -, -, hd⟩ | ⟨-, -, -, hd⟩ <;> rw [hd] <;> rfl
  | @wait a t o x granted h lt =>
    exact ⟨.wait i a, w.setRun i { w.runs i with tree := t, output := o, waiter := x }, granted,
      by simp [Label.attends], step_of_waitMove h, rfl, rfl, by rw [setRun_runs_self]; exact lt⟩
  | @drain s a t o granted h lt =>
    exact ⟨.drain i s a, w.setRun i { w.runs i with tree := t, output := o }, granted,
      by simp [Label.attends], step_of_drainMove h, rfl, rfl, by rw [setRun_runs_self]; exact lt⟩

/-- **A run on Unix that has not been left goes on, or is stuck**, the slot mutex and the
callback aside. -/
theorem goes_on_or_stuck (h : Reaches env cfg tr w) (hu : env.platform = .unix)
    (hfin : ∀ o, (w.runs i).main ≠ .finished o)
    (hfree : (w.runs i).main.locks = true → w.handle.locked = false)
    (hback : (w.runs i).main.inCallback = true → w.callers (.callback i) = .idle) :
    (∃ l w', l.granted = true ∧ l.attends i = true ∧ step env cfg w l = some w' ∧
      w'.callers = w.callers ∧ w'.handle.locked = w.handle.locked ∧
      (w'.runs i).rank < (w.runs i).rank) ∨ Stuck (cfg i) (w.runs i) := by
  have hadv : Advances env (cfg i) i w.handle (w.runs i) ∨ Stuck (cfg i) (w.runs i) :=
    advances_or_stuck hu (lifecycle_of_reaches h i) (answered_of_reaches h i)
      (drained_of_reaches h hu i) (standing_of_reaches h hu i) (rooted_of_reaches h hu i)
      (fun k => main_running h) hfree hfin
  exact hadv.imp (fun ha => ha.step hback) id

end Runs

end AerCore
