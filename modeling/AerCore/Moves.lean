import AerCore.System

/-!
# What a step can do

One inversion principle for each thread: a step that was taken is one of the
listed moves, with the guards it passed and the state it left behind.  Every
invariant of the development is proved by cases on these moves, so no later
proof unfolds a step function.

## Main definitions

* `MainMove`, `MonitorMove`, `WaitMove`, `DrainMove`, `CancelMove` — the moves of
  the run thread, the monitor, `wait`, a drain thread and a call of `cancel()`.
* `MainEdge` — the control flow of `run_impl`.
* `ForcedMove`, `TreeMove` — what the threads of the program, and anybody, can do to a tree
  once it is spawned.
* `RunMove` — what a step of the system does to one run.

## Main results

* `mainMove_of_step`, `MainMove.step` and their companions — the steps are the moves.
* `MainMove.edge` — every move of the run thread follows the control flow.
* `runMove_of_step` — a step of the system moves each run as `RunMove` says.
* `RunMove.tree` — a tree changes only by a `TreeMove`, the steps of `spawn` apart.
-/

namespace AerCore

variable {ι : Type*}

/-! ### The run thread -/

/-- The moves of the run thread of run `i`. -/
inductive MainMove (env : Env) (c : RunConfig) (i : ι) (hd : CancelHandle ι) (r : Run) :
    MainAct → CancelHandle ι → Run → Prop
  | spawnMore {s a t s'} (pc : r.main = .spawn s)
      (h : spawnStep env r.tree s a = some (t, .more s')) :
      MainMove env c i hd r (.spawn a) hd { r with main := .spawn s', tree := t }
  | spawnOk {s a t pid} (pc : r.main = .spawn s)
      (h : spawnStep env r.tree s a = some (t, .ok pid)) :
      MainMove env c i hd r (.spawn a) hd
        { r with main := .toRunning pid, armed := true, tree := t }
  | spawnFailed {s a t e} (pc : r.main = .spawn s)
      (h : spawnStep env r.tree s a = some (t, .failed e)) :
      MainMove env c i hd r (.spawn a) hd
        { r with main := .finished (.ret (.error (.spawnFailed e))), tree := t }
  | started {pid m} (pc : r.main = .toRunning pid) (h : r.machine.transition .running = .ok m) :
      MainMove env c i hd r .started hd
        { r with main := .inStarted, machine := m, events := r.events ++ [.started pid] }
  | startedRefused {pid e} (pc : r.main = .toRunning pid)
      (h : r.machine.transition .running = .error e) :
      MainMove env c i hd r .started hd { r with main := .leave (.ret (.error e)) }
  | startedReturns (pc : r.main = .inStarted) :
      MainMove env c i hd r .startedReturns hd
        { r with main := if c.cancel then .wire else .startMonitor }
  | startedPanics (pc : r.main = .inStarted) :
      MainMove env c i hd r .startedPanics hd { r with main := .leave .unwound }
  | wire (pc : r.main = .wire) (free : hd.locked = false) :
      MainMove env c i hd r .wire { hd with kill := some i } { r with main := .loadCancelled }
  | loadCancelled (pc : r.main = .loadCancelled) :
      MainMove env c i hd r (.loadCancelled hd.cancelled) hd
        { r with main := if hd.cancelled then .loadFired else .startMonitor }
  | loadFired (pc : r.main = .loadFired) :
      MainMove env c i hd r (.loadFired hd.killFired) hd
        { r with
          main := if hd.killFired then .startMonitor else .probe (ProbePc.entry env.platform) }
  | probeMore {p x p'} (pc : r.main = .probe p)
      (h : treeAliveStep env r.tree p x = some (.inl p')) :
      MainMove env c i hd r (.probe x) hd { r with main := .probe p' }
  | probeAlive {p x} (pc : r.main = .probe p)
      (h : treeAliveStep env r.tree p x = some (.inr true)) :
      MainMove env c i hd r (.probe x) hd { r with main := .fire }
  | probeDead {p x} (pc : r.main = .probe p)
      (h : treeAliveStep env r.tree p x = some (.inr false)) :
      MainMove env c i hd r (.probe x) hd { r with main := .startMonitor }
  | fire (pc : r.main = .fire) :
      MainMove env c i hd r .fire { hd with killFired := true }
        { r with main := .kill (KillPc.entry env.platform) }
  | killMore {k a t k'} (pc : r.main = .kill k)
      (h : killEscalatingStep env .killGrace r.tree k a = some (t, k'))
      (more : ∀ res, k' ≠ .done res) :
      MainMove env c i hd r (.kill a) hd { r with main := .kill k', tree := t }
  | killDone {k a t res} (pc : r.main = .kill k)
      (h : killEscalatingStep env .killGrace r.tree k a = some (t, .done res)) :
      MainMove env c i hd r (.kill a) hd { r with main := .startMonitor, tree := t }
  | startMonitor (pc : r.main = .startMonitor) (timeout : c.timeout.isSome = true) :
      MainMove env c i hd r (.startMonitor true) hd
        { r with main := c.afterMonitor, monitor := .recv }
  | startMonitorFails (pc : r.main = .startMonitor) (timeout : c.timeout.isSome = true) :
      MainMove env c i hd r (.startMonitor false) hd { r with main := .leave .unwound }
  | noMonitor (pc : r.main = .startMonitor) (timeout : c.timeout = none) :
      MainMove env c i hd r (.startMonitor true) hd { r with main := c.afterMonitor }
  | openChannel (pc : r.main = .openChannel) :
      MainMove env c i hd r .openChannel hd
        { r with
          main := .dropTx
          output := { r.output with chunks := ⟨[], true, true, true, true⟩ } }
  | dropTx (pc : r.main = .dropTx) :
      MainMove env c i hd r .dropTx hd
        { r with
          main := .startWait
          output := { r.output with chunks := { r.output.chunks with txRun := false } } }
  | startWait (pc : r.main = .startWait) :
      MainMove env c i hd r (.startWait true) hd
        { r with main := .pump, waiter := { r.waiter with pc := .startOut } }
  | startWaitFails (pc : r.main = .startWait) :
      MainMove env c i hd r (.startWait false) hd
        { r with
          main := .leave .unwound
          output := { r.output with
            chunks := (r.output.chunks.dropTx .stdout).dropTx .stderr } }
  | recv {m q} (pc : r.main = .pump) (queue : r.output.chunks.queue = m :: q) :
      MainMove env c i hd r .recv hd
        { r with
          main := .inChunk
          events := r.events ++ [m.event]
          output := { r.output with chunks := { r.output.chunks with queue := q } } }
  | recvClosed (pc : r.main = .pump) (queue : r.output.chunks.queue = [])
      (closed : r.output.chunks.closed = true) :
      MainMove env c i hd r .recvClosed hd { r with main := .recvWait }
  | chunkReturns (pc : r.main = .inChunk) :
      MainMove env c i hd r .chunkReturns hd { r with main := .pump }
  | chunkPanics (pc : r.main = .inChunk) :
      MainMove env c i hd r .chunkPanics hd { r with main := .leave .unwound }
  | recvWait {res} (pc : r.main = .recvWait) (msg : r.waiter.msg = some res) :
      MainMove env c i hd r .recvWait hd
        { r with main := .joinWait res, waiter := { r.waiter with msg := none } }
  | recvWaitLost (pc : r.main = .recvWait) (msg : r.waiter.msg = none)
      (panicked : r.waiter.pc = .panicked) :
      MainMove env c i hd r .recvWait hd { r with main := .leave (.ret (.error noWaitResult)) }
  | joinWait {res} (pc : r.main = .joinWait res) (ended : r.waiter.pc = .ended) :
      MainMove env c i hd r .joinWait hd (r.afterWait c res)
  | callWait (pc : r.main = .callWait) :
      MainMove env c i hd r .callWait hd
        { r with main := .inWait, waiter := { r.waiter with pc := .startOut } }
  | waitReturned {res} (pc : r.main = .inWait) (returned : r.waiter.pc = .returned res) :
      MainMove env c i hd r .waitReturned hd (r.afterWait c res)
  | waitPanicked (pc : r.main = .inWait) (panicked : r.waiter.pc = .panicked) :
      MainMove env c i hd r .waitReturned hd { r with main := .leave .unwound }
  | clear {code} (pc : r.main = .clear code) (free : hd.locked = false) :
      MainMove env c i hd r .clear { hd with kill := none } { r with main := .stopMonitor code }
  | stopMonitor {code} (pc : r.main = .stopMonitor code) :
      MainMove env c i hd r .stopMonitor hd { r with main := .loadTimedOut code, stopMsg := true }
  | loadTimedOut {code} (pc : r.main = .loadTimedOut code) :
      MainMove env c i hd r (.loadTimedOut r.timedOut) hd
        { r with main := .loadKillFired code r.timedOut }
  | loadKillFired {code t} (pc : r.main = .loadKillFired code t) :
      MainMove env c i hd r (.loadKillFired (c.cancel && hd.killFired)) hd
        { r with main := .toExited code t (c.cancel && hd.killFired) }
  | exited {code t cn m} (pc : r.main = .toExited code t cn)
      (h : r.machine.transition .exited = .ok m) :
      MainMove env c i hd r .exited hd
        { r with
          main := .inExited t cn
          machine := m
          events := r.events ++ [.exited (exitCode code t cn) (exitReason t cn)] }
  | exitedRefused {code t cn e} (pc : r.main = .toExited code t cn)
      (h : r.machine.transition .exited = .error e) :
      MainMove env c i hd r .exited hd { r with main := .leave (.ret (.error e)) }
  | exitedReturns {t cn} (pc : r.main = .inExited t cn) :
      MainMove env c i hd r .exitedReturns hd { r with main := .leave (.ret (runResult t cn)) }
  | exitedPanics {t cn} (pc : r.main = .inExited t cn) :
      MainMove env c i hd r .exitedPanics hd { r with main := .leave .unwound }
  | dropLocals {o} (pc : r.main = .leave o) :
      MainMove env c i hd r .dropLocals hd
        { r with
          main := if r.armed then .guardKill (KillPc.entry env.platform) o else .finished o
          stopTx := false
          output := { r.output with chunks := { r.output.chunks with rx := false } } }
  | guardMore {k a t k' o} (pc : r.main = .guardKill k o)
      (h : killEscalatingStep env .zero r.tree k a = some (t, k'))
      (more : ∀ res, k' ≠ .done res) :
      MainMove env c i hd r (.guardKill a) hd { r with main := .guardKill k' o, tree := t }
  | guardDone {k a t res o} (pc : r.main = .guardKill k o)
      (h : killEscalatingStep env .zero r.tree k a = some (t, .done res)) :
      MainMove env c i hd r (.guardKill a) hd { r with main := .guardReap o, tree := t }
  | guardReap {o x t} (pc : r.main = .guardReap o) (h : reapAbandoned env r.tree x = some t) :
      MainMove env c i hd r (.guardReap x) hd { r with main := .finished o, tree := t }

/-- Every step of the run thread is a move. -/
theorem mainMove_of_step {env : Env} {c : RunConfig} {i : ι} {hd hd' : CancelHandle ι}
    {r r' : Run} {a : MainAct} (h : runImplStep env c i hd r a = some (hd', r')) :
    MainMove env c i hd r a hd' r' := by
  cases a with
  | spawn a =>
    simp only [runImplStep] at h
    split at h
    · next s pc =>
      obtain ⟨⟨t, n⟩, hs, h⟩ := Option.map_eq_some_iff.mp h
      cases n with
      | more s' => cases h; exact .spawnMore pc hs
      | ok pid => cases h; exact .spawnOk pc hs
      | failed e => cases h; exact .spawnFailed pc hs
    · cases h
  | started =>
    simp only [runImplStep] at h
    split at h
    · next pid pc =>
      split at h
      · next m hm => cases h; exact .started pc hm
      · next e he => cases h; exact .startedRefused pc he
    · cases h
  | startedReturns =>
    simp only [runImplStep] at h
    split at h
    · next pc => cases h; exact .startedReturns pc
    · cases h
  | startedPanics =>
    simp only [runImplStep] at h
    split at h
    · next pc => cases h; exact .startedPanics pc
    · cases h
  | wire =>
    simp only [runImplStep] at h
    split at h
    · next pc =>
      rw [Option.ite_none_left_eq_some] at h
      obtain ⟨free, h⟩ := h
      cases h
      exact .wire pc (Bool.eq_false_iff.mpr free)
    · cases h
  | loadCancelled b =>
    simp only [runImplStep] at h
    split at h
    · next pc =>
      rw [Option.ite_none_right_eq_some] at h
      obtain ⟨rfl, h⟩ := h
      cases h
      exact .loadCancelled pc
    · cases h
  | loadFired b =>
    simp only [runImplStep] at h
    split at h
    · next pc =>
      rw [Option.ite_none_right_eq_some] at h
      obtain ⟨rfl, h⟩ := h
      cases h
      exact .loadFired pc
    · cases h
  | probe x =>
    simp only [runImplStep] at h
    split at h
    · next p pc =>
      obtain ⟨n, hn, h⟩ := Option.map_eq_some_iff.mp h
      rcases n with p' | _ | _
      · cases h; exact .probeMore pc hn
      · cases h; exact .probeDead pc hn
      · cases h; exact .probeAlive pc hn
    · cases h
  | fire =>
    simp only [runImplStep] at h
    split at h
    · next pc => cases h; exact .fire pc
    · cases h
  | kill a =>
    simp only [runImplStep] at h
    split at h
    · next k pc =>
      obtain ⟨⟨t, k'⟩, hk, h⟩ := Option.map_eq_some_iff.mp h
      cases k' with
      | done res => cases h; exact .killDone pc hk
      | _ => cases h; exact .killMore pc hk (by simp)
    · cases h
  | startMonitor ok =>
    simp only [runImplStep] at h
    split at h
    · next pc =>
      split at h
      · next ht => cases h; exact .startMonitor pc (by simp [ht])
      · next ht => cases h; exact .startMonitorFails pc (by simp [ht])
      · next ht => cases h; exact .noMonitor pc ht
      · cases h
    · cases h
  | openChannel =>
    simp only [runImplStep] at h
    split at h
    · next pc => cases h; exact .openChannel pc
    · cases h
  | dropTx =>
    simp only [runImplStep] at h
    split at h
    · next pc => cases h; exact .dropTx pc
    · cases h
  | startWait ok =>
    simp only [runImplStep] at h
    split at h
    · next pc =>
      cases ok with
      | true => cases h; exact .startWait pc
      | false => cases h; exact .startWaitFails pc
    · cases h
  | recv =>
    simp only [runImplStep] at h
    split at h
    · next m q pc hq => cases h; exact .recv pc hq
    · cases h
  | recvClosed =>
    simp only [runImplStep] at h
    split at h
    · next pc hq =>
      rw [Option.ite_none_right_eq_some] at h
      obtain ⟨closed, h⟩ := h
      cases h
      exact .recvClosed pc hq closed
    · cases h
  | chunkReturns =>
    simp only [runImplStep] at h
    split at h
    · next pc => cases h; exact .chunkReturns pc
    · cases h
  | chunkPanics =>
    simp only [runImplStep] at h
    split at h
    · next pc => cases h; exact .chunkPanics pc
    · cases h
  | recvWait =>
    simp only [runImplStep] at h
    split at h
    · next res pc hmsg => cases h; exact .recvWait pc hmsg
    · next pc hmsg hpan => cases h; exact .recvWaitLost pc hmsg hpan
    · cases h
  | joinWait =>
    simp only [runImplStep] at h
    split at h
    · next res pc hend => cases h; exact .joinWait pc hend
    · cases h
  | callWait =>
    simp only [runImplStep] at h
    split at h
    · next pc => cases h; exact .callWait pc
    · cases h
  | waitReturned =>
    simp only [runImplStep] at h
    split at h
    · next res pc hret => cases h; exact .waitReturned pc hret
    · next pc hpan => cases h; exact .waitPanicked pc hpan
    · cases h
  | clear =>
    simp only [runImplStep] at h
    split at h
    · next code pc =>
      rw [Option.ite_none_left_eq_some] at h
      obtain ⟨free, h⟩ := h
      cases h
      exact .clear pc (Bool.eq_false_iff.mpr free)
    · cases h
  | stopMonitor =>
    simp only [runImplStep] at h
    split at h
    · next code pc => cases h; exact .stopMonitor pc
    · cases h
  | loadTimedOut b =>
    simp only [runImplStep] at h
    split at h
    · next code pc =>
      rw [Option.ite_none_right_eq_some] at h
      obtain ⟨rfl, h⟩ := h
      cases h
      exact .loadTimedOut pc
    · cases h
  | loadKillFired b =>
    simp only [runImplStep] at h
    split at h
    · next code t pc =>
      rw [Option.ite_none_right_eq_some] at h
      obtain ⟨rfl, h⟩ := h
      cases h
      exact .loadKillFired pc
    · cases h
  | exited =>
    simp only [runImplStep] at h
    split at h
    · next code t cn pc =>
      split at h
      · next m hm => cases h; exact .exited pc hm
      · next e he => cases h; exact .exitedRefused pc he
    · cases h
  | exitedReturns =>
    simp only [runImplStep] at h
    split at h
    · next t cn pc => cases h; exact .exitedReturns pc
    · cases h
  | exitedPanics =>
    simp only [runImplStep] at h
    split at h
    · next t cn pc => cases h; exact .exitedPanics pc
    · cases h
  | dropLocals =>
    simp only [runImplStep] at h
    split at h
    · next o pc => cases h; exact .dropLocals pc
    · cases h
  | guardKill a =>
    simp only [runImplStep] at h
    split at h
    · next k o pc =>
      obtain ⟨⟨t, k'⟩, hk, h⟩ := Option.map_eq_some_iff.mp h
      cases k' with
      | done res => cases h; exact .guardDone pc hk
      | _ => cases h; exact .guardMore pc hk (by simp)
    · cases h
  | guardReap =>
    simp only [runImplStep] at h
    split at h
    · next o pc =>
      obtain ⟨t, ht, h⟩ := Option.map_eq_some_iff.mp h
      cases h
      exact .guardReap pc ht
    · cases h

/-- Every move of the run thread is a step. -/
theorem MainMove.step {env : Env} {c : RunConfig} {i : ι} {hd hd' : CancelHandle ι}
    {r r' : Run} {a : MainAct} (h : MainMove env c i hd r a hd' r') :
    runImplStep env c i hd r a = some (hd', r') := by
  cases h with
  | startMonitor pc timeout | startMonitorFails pc timeout =>
    obtain ⟨ms, hms⟩ := Option.isSome_iff_exists.mp timeout
    simp [runImplStep, pc, hms]
  | _ => simp [runImplStep, *]

/-! ### The control flow of `run_impl` -/

/-- The control flow of `run_impl`: a place, a step and the place after it.  What only
depends on the place of the run thread is proved by cases on these edges. -/
inductive MainEdge (env : Env) (c : RunConfig) : MainPc → MainAct → MainPc → Prop
  | spawnMore {s a s'} : MainEdge env c (.spawn s) (.spawn a) (.spawn s')
  | spawnOk {s a pid} : MainEdge env c (.spawn s) (.spawn a) (.toRunning pid)
  | spawnFailed {s a e} :
      MainEdge env c (.spawn s) (.spawn a) (.finished (.ret (.error (.spawnFailed e))))
  | started {pid} : MainEdge env c (.toRunning pid) .started .inStarted
  | startedRefused {pid e} : MainEdge env c (.toRunning pid) .started (.leave (.ret (.error e)))
  | startedWire (cancel : c.cancel = true) : MainEdge env c .inStarted .startedReturns .wire
  | startedPlain (cancel : c.cancel = false) :
      MainEdge env c .inStarted .startedReturns .startMonitor
  | startedPanics : MainEdge env c .inStarted .startedPanics (.leave .unwound)
  | wire : MainEdge env c .wire .wire .loadCancelled
  | isCancelled : MainEdge env c .loadCancelled (.loadCancelled true) .loadFired
  | notCancelled : MainEdge env c .loadCancelled (.loadCancelled false) .startMonitor
  | hasFired : MainEdge env c .loadFired (.loadFired true) .startMonitor
  | notFired : MainEdge env c .loadFired (.loadFired false) (.probe (ProbePc.entry env.platform))
  | probeMore : MainEdge env c (.probe .group) (.probe .absent) (.probe .pid)
  | probeAlive {p x} (alive : x ≠ .absent) : MainEdge env c (.probe p) (.probe x) .fire
  | probeDead {p} : MainEdge env c (.probe p) (.probe .absent) .startMonitor
  | fire : MainEdge env c .fire .fire (.kill (KillPc.entry env.platform))
  | killMore {k a k'} : MainEdge env c (.kill k) (.kill a) (.kill k')
  | killDone {k a} : MainEdge env c (.kill k) (.kill a) .startMonitor
  | monitorCapture (capture : c.captureOutput = true) :
      MainEdge env c .startMonitor (.startMonitor true) .openChannel
  | monitorPlain (capture : c.captureOutput = false) :
      MainEdge env c .startMonitor (.startMonitor true) .callWait
  | startMonitorFails : MainEdge env c .startMonitor (.startMonitor false) (.leave .unwound)
  | openChannel : MainEdge env c .openChannel .openChannel .dropTx
  | dropTx : MainEdge env c .dropTx .dropTx .startWait
  | startWait : MainEdge env c .startWait (.startWait true) .pump
  | startWaitFails : MainEdge env c .startWait (.startWait false) (.leave .unwound)
  | recv : MainEdge env c .pump .recv .inChunk
  | recvClosed : MainEdge env c .pump .recvClosed .recvWait
  | chunkReturns : MainEdge env c .inChunk .chunkReturns .pump
  | chunkPanics : MainEdge env c .inChunk .chunkPanics (.leave .unwound)
  | recvWait {res} : MainEdge env c .recvWait .recvWait (.joinWait res)
  | recvWaitLost : MainEdge env c .recvWait .recvWait (.leave (.ret (.error noWaitResult)))
  | joinClear {code} (cancel : c.cancel = true) :
      MainEdge env c (.joinWait (.ok code)) .joinWait (.clear code)
  | joinPlain {code} (cancel : c.cancel = false) :
      MainEdge env c (.joinWait (.ok code)) .joinWait (.stopMonitor code)
  | joinFailed {e} : MainEdge env c (.joinWait (.error e)) .joinWait (.leave (.ret (.error e)))
  | callWait : MainEdge env c .callWait .callWait .inWait
  | waitClear {code} (cancel : c.cancel = true) :
      MainEdge env c .inWait .waitReturned (.clear code)
  | waitPlain {code} (cancel : c.cancel = false) :
      MainEdge env c .inWait .waitReturned (.stopMonitor code)
  | waitFailed {e} : MainEdge env c .inWait .waitReturned (.leave (.ret (.error e)))
  | waitPanicked : MainEdge env c .inWait .waitReturned (.leave .unwound)
  | clear {code} : MainEdge env c (.clear code) .clear (.stopMonitor code)
  | stopMonitor {code} : MainEdge env c (.stopMonitor code) .stopMonitor (.loadTimedOut code)
  | loadTimedOut {code b} :
      MainEdge env c (.loadTimedOut code) (.loadTimedOut b) (.loadKillFired code b)
  | loadKillFired {code t b} :
      MainEdge env c (.loadKillFired code t) (.loadKillFired b) (.toExited code t b)
  | exited {code t cn} : MainEdge env c (.toExited code t cn) .exited (.inExited t cn)
  | exitedRefused {code t cn e} :
      MainEdge env c (.toExited code t cn) .exited (.leave (.ret (.error e)))
  | exitedReturns {t cn} :
      MainEdge env c (.inExited t cn) .exitedReturns (.leave (.ret (runResult t cn)))
  | exitedPanics {t cn} : MainEdge env c (.inExited t cn) .exitedPanics (.leave .unwound)
  | dropArmed {o} :
      MainEdge env c (.leave o) .dropLocals (.guardKill (KillPc.entry env.platform) o)
  | dropDisarmed {o} : MainEdge env c (.leave o) .dropLocals (.finished o)
  | guardMore {k a k' o} : MainEdge env c (.guardKill k o) (.guardKill a) (.guardKill k' o)
  | guardDone {k a o} : MainEdge env c (.guardKill k o) (.guardKill a) (.guardReap o)
  | guardReap {o x} : MainEdge env c (.guardReap o) (.guardReap x) (.finished o)

/-- Every move of the run thread follows an edge. -/
theorem MainMove.edge {env : Env} {c : RunConfig} {i : ι} {hd hd' : CancelHandle ι}
    {r r' : Run} {a : MainAct} (h : MainMove env c i hd r a hd' r') :
    MainEdge env c r.main a r'.main := by
  cases h with
  | startedReturns pc =>
    rw [pc]
    cases hc : c.cancel with
    | true => exact .startedWire hc
    | false => exact .startedPlain hc
  | loadCancelled pc =>
    rw [pc]
    cases hd.cancelled with
    | true => exact .isCancelled
    | false => exact .notCancelled
  | loadFired pc =>
    rw [pc]
    cases hd.killFired with
    | true => exact .hasFired
    | false => exact .notFired
  | probeMore pc h =>
    obtain ⟨rfl, rfl, rfl, -⟩ := treeAliveStep_eq_more h
    rw [pc]
    exact .probeMore
  | probeAlive pc h =>
    rw [pc]
    exact .probeAlive (by simpa using treeAliveStep_eq_answer h)
  | @probeDead _ x pc h =>
    obtain rfl : x = .absent := by simpa using treeAliveStep_eq_answer h
    rw [pc]
    exact .probeDead
  | startMonitor pc | noMonitor pc =>
    rw [pc]
    simp only [RunConfig.afterMonitor]
    cases hc : c.captureOutput with
    | true => exact .monitorCapture hc
    | false => exact .monitorPlain hc
  | @joinWait res pc =>
    rw [pc]
    cases res with
    | error e => exact .joinFailed
    | ok code =>
      simp only [Run.afterWait]
      cases hc : c.cancel with
      | true => exact .joinClear hc
      | false => exact .joinPlain hc
  | @waitReturned res pc =>
    rw [pc]
    cases res with
    | error e => exact .waitFailed
    | ok code =>
      simp only [Run.afterWait]
      cases hc : c.cancel with
      | true => exact .waitClear hc
      | false => exact .waitPlain hc
  | dropLocals pc =>
    rw [pc]
    cases r.armed with
    | true => exact .dropArmed
    | false => exact .dropDisarmed
  | _ pc =>
    rw [pc]
    constructor

/-- A step of `spawn` is made in `spawn`. -/
theorem MainEdge.spawning {env : Env} {c : RunConfig} {m m' : MainPc} {b : SpawnAct}
    (h : MainEdge env c m (.spawn b) m') : ∃ s, m = .spawn s := by
  cases h <;> exact ⟨_, rfl⟩

/-- The run thread does not go back into `spawn`. -/
theorem MainEdge.of_spawn {env : Env} {c : RunConfig} {m : MainPc} {a : MainAct} {s : SpawnPc}
    (h : MainEdge env c m a (.spawn s)) : (∃ s₀, m = .spawn s₀) ∧ ∃ b, a = .spawn b := by
  cases h
  exact ⟨⟨_, rfl⟩, _, rfl⟩

/-- A run thread that has left makes no step. -/
theorem MainEdge.not_finished {env : Env} {c : RunConfig} {m m' : MainPc} {a : MainAct}
    (h : MainEdge env c m a m') (o : Outcome) : m ≠ .finished o := by
  rintro rfl
  cases h

theorem MainEdge.finished {env : Env} {c : RunConfig} {m : MainPc} {a : MainAct} {o : Outcome}
    (h : MainEdge env c m a (.finished o)) :
    (∃ b, a = .spawn b) ∨ a = .dropLocals ∨ ∃ x, a = .guardReap x := by
  cases h with
  | spawnFailed => exact .inl ⟨_, rfl⟩
  | dropDisarmed => exact .inr (.inl rfl)
  | guardReap => exact .inr (.inr ⟨_, rfl⟩)

/-! ### The other threads of a run -/

/-- The moves of the timeout monitor. -/
inductive MonitorMove (env : Env) (r : Run) : MonitorAct → Run → Prop
  | message (pc : r.monitor = .recv) (msg : r.stopMsg = true) :
      MonitorMove env r .message { r with monitor := .done, stopMsg := false }
  | disconnected (pc : r.monitor = .recv) (msg : r.stopMsg = false) (tx : r.stopTx = false) :
      MonitorMove env r .disconnected { r with monitor := .done }
  | deadline (pc : r.monitor = .recv) (msg : r.stopMsg = false) (tx : r.stopTx = true) :
      MonitorMove env r .deadline { r with monitor := .probe (ProbePc.entry env.platform) }
  | probeMore {p x p'} (pc : r.monitor = .probe p)
      (h : treeAliveStep env r.tree p x = some (.inl p')) :
      MonitorMove env r (.probe x) { r with monitor := .probe p' }
  | probeAlive {p x} (pc : r.monitor = .probe p)
      (h : treeAliveStep env r.tree p x = some (.inr true)) :
      MonitorMove env r (.probe x) { r with monitor := .store }
  | probeDead {p x} (pc : r.monitor = .probe p)
      (h : treeAliveStep env r.tree p x = some (.inr false)) :
      MonitorMove env r (.probe x) { r with monitor := .done }
  | store (pc : r.monitor = .store) :
      MonitorMove env r .store
        { r with monitor := .kill (KillPc.entry env.platform), timedOut := true }
  | killMore {k a t k'} (pc : r.monitor = .kill k)
      (h : killEscalatingStep env .killGrace r.tree k a = some (t, k'))
      (more : ∀ res, k' ≠ .done res) :
      MonitorMove env r (.kill a) { r with monitor := .kill k', tree := t }
  | killDone {k a t res} (pc : r.monitor = .kill k)
      (h : killEscalatingStep env .killGrace r.tree k a = some (t, .done res)) :
      MonitorMove env r (.kill a) { r with monitor := .done, tree := t }

/-- Every step of the monitor is a move. -/
theorem monitorMove_of_step {env : Env} {r r' : Run} {a : MonitorAct}
    (h : monitorStep env r a = some r') : MonitorMove env r a r' := by
  cases a with
  | message =>
    simp only [monitorStep] at h
    split at h
    · next pc =>
      rw [Option.ite_none_right_eq_some] at h
      obtain ⟨msg, h⟩ := h
      cases h
      exact .message pc msg
    · cases h
  | disconnected =>
    simp only [monitorStep] at h
    split at h
    · next pc =>
      rw [Option.ite_none_right_eq_some, Bool.and_eq_true, Bool.not_eq_true',
        Bool.not_eq_true'] at h
      obtain ⟨⟨msg, tx⟩, h⟩ := h
      cases h
      exact .disconnected pc msg tx
    · cases h
  | deadline =>
    simp only [monitorStep] at h
    split at h
    · next pc =>
      rw [Option.ite_none_right_eq_some, Bool.and_eq_true, Bool.not_eq_true'] at h
      obtain ⟨⟨msg, tx⟩, h⟩ := h
      cases h
      exact .deadline pc msg tx
    · cases h
  | probe x =>
    simp only [monitorStep] at h
    split at h
    · next p pc =>
      obtain ⟨n, hn, h⟩ := Option.map_eq_some_iff.mp h
      rcases n with p' | _ | _
      · cases h; exact .probeMore pc hn
      · cases h; exact .probeDead pc hn
      · cases h; exact .probeAlive pc hn
    · cases h
  | store =>
    simp only [monitorStep] at h
    split at h
    · next pc => cases h; exact .store pc
    · cases h
  | kill a =>
    simp only [monitorStep] at h
    split at h
    · next k pc =>
      obtain ⟨⟨t, k'⟩, hk, h⟩ := Option.map_eq_some_iff.mp h
      cases k' with
      | done res => cases h; exact .killDone pc hk
      | _ => cases h; exact .killMore pc hk (by simp)
    · cases h

/-- Every move of the monitor is a step. -/
theorem MonitorMove.step {env : Env} {r r' : Run} {a : MonitorAct} (h : MonitorMove env r a r') :
    monitorStep env r a = some r' := by
  cases h <;> simp [monitorStep, *]

/-- The moves of `wait` and of the wait thread. -/
inductive WaitMove (env : Env) (capture : Bool) (t : Tree) (o : Output) (w : Waiter) :
    WaitAct → Tree → Output → Waiter → Prop
  | startOut (pc : w.pc = .startOut) :
      WaitMove env capture t o w (.startOut true) t { o with stdout := ⟨.reading, 0⟩ }
        { w with pc := .startErr }
  | startOutFails (pc : w.pc = .startOut) :
      WaitMove env capture t o w (.startOut false) t
        { o with chunks := (o.chunks.dropTx .stdout).dropTx .stderr } { w with pc := .panicked }
  | startErr (pc : w.pc = .startErr) :
      WaitMove env capture t o w (.startErr true) t { o with stderr := ⟨.reading, 0⟩ }
        { w with pc := .childWait }
  | startErrFails (pc : w.pc = .startErr) :
      WaitMove env capture t o w (.startErr false) t
        { o with chunks := o.chunks.dropTx .stderr } { w with pc := .panicked }
  | childWait {status} (pc : w.pc = .childWait) (zombie : t.root = .zombie status) :
      WaitMove env capture t o w (.childWait (.ok ())) { t with root := .reaped status } o
        { w with pc := WaitPc.afterChildWait env.platform (.ok status) }
  | childWaitFails {e} (pc : w.pc = .childWait) :
      WaitMove env capture t o w (.childWait (.error e)) t o
        { w with pc := WaitPc.afterChildWait env.platform (.error e) }
  | killTree {res x t'} (pc : w.pc = .killTree res) (h : killTree env t x = some t') :
      WaitMove env capture t o w (.killTree x) t' o { w with pc := .joinOut res }
  | joinOut {res} (pc : w.pc = .joinOut res) (done : o.stdout.pc = .done) :
      WaitMove env capture t o w .joinOut t o { w with pc := .joinErr res }
  | joinErr {res} (pc : w.pc = .joinErr res) (done : o.stderr.pc = .done) :
      WaitMove env capture t o w .joinErr t o { w with pc := .returned (waitResult res) }
  | send {res} (pc : w.pc = .returned res) (thread : capture = true) :
      WaitMove env capture t o w .send t o ⟨.sent, some res⟩
  | exit (pc : w.pc = .sent) : WaitMove env capture t o w .exit t o { w with pc := .ended }

/-- Every step of `wait` is a move. -/
theorem waitMove_of_step {env : Env} {capture : Bool} {t t' : Tree} {o o' : Output}
    {w w' : Waiter} {a : WaitAct} (h : waitStep env capture t o w a = some (t', o', w')) :
    WaitMove env capture t o w a t' o' w' := by
  cases a with
  | startOut ok =>
    simp only [waitStep] at h
    split at h
    · next pc =>
      cases ok with
      | true => cases h; exact .startOut pc
      | false => cases h; exact .startOutFails pc
    · cases h
  | startErr ok =>
    simp only [waitStep] at h
    split at h
    · next pc =>
      cases ok with
      | true => cases h; exact .startErr pc
      | false => cases h; exact .startErrFails pc
    · cases h
  | childWait x =>
    simp only [waitStep] at h
    split at h
    · next pc =>
      rcases x with e | _
      · cases h; exact .childWaitFails pc
      · obtain ⟨⟨t₁, status⟩, ht, h⟩ := Option.map_eq_some_iff.mp h
        cases h
        unfold childWait at ht
        split at ht
        · next hz => cases ht; exact .childWait pc hz
        · cases ht
    · cases h
  | killTree x =>
    simp only [waitStep] at h
    split at h
    · next res pc =>
      obtain ⟨t₁, ht, h⟩ := Option.map_eq_some_iff.mp h
      cases h
      exact .killTree pc ht
    · cases h
  | joinOut =>
    simp only [waitStep] at h
    split at h
    · next res pc =>
      rw [Option.ite_none_right_eq_some] at h
      obtain ⟨done, h⟩ := h
      cases h
      exact .joinOut pc done
    · cases h
  | joinErr =>
    simp only [waitStep] at h
    split at h
    · next res pc =>
      rw [Option.ite_none_right_eq_some] at h
      obtain ⟨done, h⟩ := h
      cases h
      exact .joinErr pc done
    · cases h
  | send =>
    simp only [waitStep] at h
    split at h
    · next res pc =>
      rw [Option.ite_none_right_eq_some] at h
      obtain ⟨thread, h⟩ := h
      cases h
      exact .send pc thread
    · cases h
  | exit =>
    simp only [waitStep] at h
    split at h
    · next pc => cases h; exact .exit pc
    · cases h

/-- Every move of `wait` is a step. -/
theorem WaitMove.step {env : Env} {capture : Bool} {t t' : Tree} {o o' : Output}
    {w w' : Waiter} {a : WaitAct} (h : WaitMove env capture t o w a t' o' w') :
    waitStep env capture t o w a = some (t', o', w') := by
  cases h with
  | childWait pc zombie => simp [waitStep, AerCore.childWait, pc, zombie]
  | _ => simp [waitStep, *]

/-- The moves of the drain thread of a stream. -/
inductive DrainMove (capture : Bool) (s : Stream) (t : Tree) (o : Output) :
    DrainAct → Tree → Output → Prop
  | readBytes {bs} (pc : (o.drain s).pc = .reading) (pos : 0 < bs.length)
      (le : bs.length ≤ bufSize) (unread : bs.isPrefixOf (t.buf s) = true) :
      DrainMove capture s t o (.read (.bytes bs)) (t.setBuf s ((t.buf s).drop bs.length))
        (o.setDrain s { o.drain s with pc := if capture then .sending bs else .reading })
  | readEof (pc : (o.drain s).pc = .reading) (empty : t.buf s = []) (free : t.held s = false) :
      DrainMove capture s t o (.read .eof) t (o.endDrain s)
  | readInterrupted (pc : (o.drain s).pc = .reading) :
      DrainMove capture s t o (.read .interrupted) t (if capture then o.endDrain s else o)
  | readError {e} (pc : (o.drain s).pc = .reading) :
      DrainMove capture s t o (.read (.error e)) t (o.endDrain s)
  | send {bs} (pc : (o.drain s).pc = .sending bs) :
      DrainMove capture s t o .send t
        { o.setDrain s ⟨.reading, (o.drain s).seq + 1⟩ with
          chunks := o.chunks.send (s.makeMsg (o.drain s).seq bs) }

/-- Every step of a drain thread is a move. -/
theorem drainMove_of_step {capture : Bool} {s : Stream} {t t' : Tree} {o o' : Output}
    {a : DrainAct} (h : drainStep capture s t o a = some (t', o')) :
    DrainMove capture s t o a t' o' := by
  cases a with
  | read x =>
    simp only [drainStep] at h
    split at h
    · next pc =>
      cases x with
      | bytes bs =>
        rw [Option.ite_none_right_eq_some] at h
        obtain ⟨⟨pos, le, unread⟩, h⟩ := h
        cases h
        exact .readBytes pc pos le unread
      | eof =>
        rw [Option.ite_none_right_eq_some] at h
        obtain ⟨⟨empty, free⟩, h⟩ := h
        cases h
        exact .readEof pc empty free
      | interrupted => cases h; exact .readInterrupted pc
      | error e => cases h; exact .readError pc
    · cases h
  | send =>
    simp only [drainStep] at h
    split at h
    · next bs pc => cases h; exact .send pc
    · cases h

/-- Every move of a drain thread is a step. -/
theorem DrainMove.step {capture : Bool} {s : Stream} {t t' : Tree} {o o' : Output}
    {a : DrainAct} (h : DrainMove capture s t o a t' o') :
    drainStep capture s t o a = some (t', o') := by
  cases h <;> simp [drainStep, *]

/-! ### `cancel()` -/

section Cancel

variable [DecidableEq ι]

/-- The moves of a call of `cancel()` by caller `k`. -/
inductive CancelMove (env : Env) (w : World ι) (k : CallerId ι) : CancelAct ι → World ι → Prop
  | swapFirst (pc : w.callers k = .idle) (first : w.handle.cancelled = false) :
      CancelMove env w k (.swap false)
        (World.setCaller { w with handle := { w.handle with cancelled := true } } k .lock)
  | swapAgain (pc : w.callers k = .idle) (again : w.handle.cancelled = true) :
      CancelMove env w k (.swap true) (w.setCaller k .idle)
  | lockEmpty (pc : w.callers k = .lock) (free : w.handle.locked = false)
      (slot : w.handle.kill = none) :
      CancelMove env w k .lock
        (World.setCaller { w with handle := { w.handle with locked := true } } k .unlock)
  | lockWired {i} (pc : w.callers k = .lock) (free : w.handle.locked = false)
      (slot : w.handle.kill = some i) :
      CancelMove env w k .lock
        (World.setCaller { w with handle := { w.handle with locked := true } } k
          (.probe i (ProbePc.entry env.platform)))
  | probeMore {i p x p'} (pc : w.callers k = .probe i p)
      (h : treeAliveStep env (w.runs i).tree p x = some (.inl p')) :
      CancelMove env w k (.probe i x) (w.setCaller k (.probe i p'))
  | probeAlive {i p x} (pc : w.callers k = .probe i p)
      (h : treeAliveStep env (w.runs i).tree p x = some (.inr true)) :
      CancelMove env w k (.probe i x) (w.setCaller k (.fire i))
  | probeDead {i p x} (pc : w.callers k = .probe i p)
      (h : treeAliveStep env (w.runs i).tree p x = some (.inr false)) :
      CancelMove env w k (.probe i x) (w.setCaller k .unlock)
  | fire {i} (pc : w.callers k = .fire i) :
      CancelMove env w k (.fire i)
        (World.setCaller { w with handle := { w.handle with killFired := true } } k
          (.kill i (KillPc.entry env.platform)))
  | killMore {i p a t p'} (pc : w.callers k = .kill i p)
      (h : killEscalatingStep env .killGrace (w.runs i).tree p a = some (t, p'))
      (more : ∀ res, p' ≠ .done res) :
      CancelMove env w k (.kill i a) ((w.setTree i t).setCaller k (.kill i p'))
  | killDone {i p a t res} (pc : w.callers k = .kill i p)
      (h : killEscalatingStep env .killGrace (w.runs i).tree p a = some (t, .done res)) :
      CancelMove env w k (.kill i a) ((w.setTree i t).setCaller k .unlock)
  | unlock (pc : w.callers k = .unlock) :
      CancelMove env w k .unlock
        (World.setCaller { w with handle := { w.handle with locked := false } } k .idle)

/-- Every step of `cancel()` is a move. -/
theorem cancelMove_of_step {env : Env} {w w' : World ι} {k : CallerId ι} {a : CancelAct ι}
    (h : cancelStep env w k a = some w') : CancelMove env w k a w' := by
  cases a with
  | swap was =>
    simp only [cancelStep] at h
    split at h
    · next pc =>
      rw [Option.ite_none_right_eq_some] at h
      obtain ⟨⟨-, hwas⟩, h⟩ := h
      cases h
      cases was with
      | false => exact .swapFirst pc hwas
      | true =>
        have hhd : ({ w.handle with cancelled := true } : CancelHandle ι) = w.handle := by
          rw [← hwas]
        rw [hhd]
        exact .swapAgain pc hwas
    · cases h
  | lock =>
    simp only [cancelStep] at h
    split at h
    · next pc =>
      rw [Option.ite_none_left_eq_some] at h
      obtain ⟨free, h⟩ := h
      cases h
      split
      · next slot => exact .lockEmpty pc (Bool.eq_false_iff.mpr free) slot
      · next i slot => exact .lockWired pc (Bool.eq_false_iff.mpr free) slot
    · cases h
  | probe i x =>
    simp only [cancelStep] at h
    split at h
    · next j p pc =>
      rw [Option.ite_none_right_eq_some] at h
      obtain ⟨rfl, h⟩ := h
      obtain ⟨n, hn, h⟩ := Option.map_eq_some_iff.mp h
      rcases n with p' | _ | _
      · cases h; exact .probeMore pc hn
      · cases h; exact .probeDead pc hn
      · cases h; exact .probeAlive pc hn
    · cases h
  | fire i =>
    simp only [cancelStep] at h
    split at h
    · next j pc =>
      rw [Option.ite_none_right_eq_some] at h
      obtain ⟨rfl, h⟩ := h
      cases h
      exact .fire pc
    · cases h
  | kill i a =>
    simp only [cancelStep] at h
    split at h
    · next j p pc =>
      rw [Option.ite_none_right_eq_some] at h
      obtain ⟨rfl, h⟩ := h
      obtain ⟨⟨t, p'⟩, hk, h⟩ := Option.map_eq_some_iff.mp h
      cases p' with
      | done res => cases h; exact .killDone pc hk
      | _ => cases h; exact .killMore pc hk (by simp)
    · cases h
  | unlock =>
    simp only [cancelStep] at h
    split at h
    · next pc => cases h; exact .unlock pc
    · cases h

/-- Every move of `cancel()` past the swap is a step. -/
theorem CancelMove.step {env : Env} {w w' : World ι} {k : CallerId ι} {a : CancelAct ι}
    (h : CancelMove env w k a w') (ha : ∀ was, a ≠ .swap was) :
    cancelStep env w k a = some w' := by
  cases h with
  | swapFirst | swapAgain => exact absurd rfl (ha _)
  | _ => simp [cancelStep, *]

end Cancel

/-! ### Trees -/

/-- What the threads of the program can do to a tree once its root is spawned: kill by
force, reap the root, take bytes out of a pipe. -/
inductive ForcedMove (t : Tree) : Tree → Prop
  | stay : ForcedMove t t
  | killGroup (status : Option ℤ) : ForcedMove t (t.killGroup status)
  | killRoot (status : Option ℤ) : ForcedMove t (t.killRoot status)
  | reap {status} (h : t.root = .zombie status) : ForcedMove t { t with root := .reaped status }
  | setBuf (s : Stream) (bs : List UInt8) : ForcedMove t (t.setBuf s bs)

/-- What anybody can do to it: its own processes act, or a thread does. -/
inductive TreeMove (env : Env) (t : Tree) : Tree → Prop
  | proc {a t'} (h : procStep env t a = some t') : TreeMove env t t'
  | forced {t'} (h : ForcedMove t t') : TreeMove env t t'

theorem forcedMove_of_killEscalating {env : Env} {grace : Grace} {t t' : Tree} {k k' : KillPc}
    {a : KillAct} (h : killEscalatingStep env grace t k a = some (t', k')) :
    ForcedMove t t' := by
  rcases killEscalatingStep_tree h with rfl | ⟨status, rfl⟩ | ⟨status, rfl⟩
  · exact .stay
  · exact .killGroup status
  · exact .killRoot status

theorem forcedMove_of_killTree {env : Env} {t t' : Tree} {x : Reply}
    (h : killTree env t x = some t') : ForcedMove t t' := by
  unfold killTree at h
  split at h <;> rw [Option.ite_none_right_eq_some] at h
  all_goals
    obtain ⟨-, h⟩ := h
    split at h <;> cases h
    · exact .killGroup _
    · exact .stay

theorem forcedMove_of_reapRoot {t t' : Tree} (h : t.reapRoot = some t') : ForcedMove t t' := by
  unfold Tree.reapRoot at h
  split at h
  · next hz => cases h; exact .reap hz
  · cases h; exact .stay
  · cases h
  · cases h

theorem forcedMove_of_reapAbandoned {env : Env} {t t' : Tree} {x : WaitpidReply}
    (h : reapAbandoned env t x = some t') : ForcedMove t t' := by
  obtain ⟨-, -, h⟩ | rfl := reapAbandoned_cases h
  · exact forcedMove_of_reapRoot h
  · exact .stay

namespace ForcedMove

variable {t t' : Tree}

theorem live (h : ForcedMove t t') : Tree.LiveFrom t t' := by
  cases h with
  | stay => exact fun who p hp => ⟨who, p, hp, id⟩
  | killGroup status => exact Tree.liveFrom_killGroup t status
  | killRoot status => exact Tree.liveFrom_killRoot t status
  | reap hz =>
    exact Tree.liveFrom_of_subset (fun h => by cases h) id fun p hp =>
      Tree.exists_proc?_of_kid hp id
  | setBuf s bs =>
    refine Tree.liveFrom_of_subset (by simp) (by simp) fun p hp => ?_
    rw [Tree.setBuf_kids] at hp
    exact Tree.exists_proc?_of_kid hp id

/-- A live root may be made a zombie, and a zombie may be reaped. -/
theorem root (h : ForcedMove t t') :
    t'.root = t.root ∨ (t.root = .live ∧ ∃ status, t'.root = .zombie status) ∨
      ∃ status, t.root = .zombie status ∧ t'.root = .reaped status := by
  cases h with
  | stay => exact .inl rfl
  | killGroup status =>
    simp only [Tree.killGroup]
    split
    · next hl => exact .inr (.inl ⟨Tree.rootLive_iff.mp (Bool.and_eq_true_iff.mp hl).1, _, rfl⟩)
    · exact .inl rfl
  | killRoot status =>
    simp only [Tree.killRoot]
    split
    · next hl => exact .inr (.inl ⟨Tree.rootLive_iff.mp hl, _, rfl⟩)
    · exact .inl rfl
  | reap hz => exact .inr (.inr ⟨_, hz, rfl⟩)
  | setBuf s bs => exact .inl (Tree.setBuf_root t s bs)

theorem leader (h : ForcedMove t t') : t'.leader.inGroup = t.leader.inGroup := by
  cases h with
  | killRoot status => unfold Tree.killRoot; split <;> rfl
  | setBuf s bs => rw [Tree.setBuf_leader]
  | stay | killGroup | reap => rfl

theorem kids (h : ForcedMove t t') : ∀ p ∈ t'.kids, p ∈ t.kids := by
  intro p hp
  cases h with
  | stay | reap => exact hp
  | killGroup status => exact (List.mem_filter.mp hp).1
  | killRoot status =>
    unfold Tree.killRoot at hp
    split at hp <;> exact hp
  | setBuf s bs => rwa [Tree.setBuf_kids] at hp

theorem groupExists (h : ForcedMove t t') (he : t.groupExists = false) :
    t'.groupExists = false := by
  cases h with
  | stay => exact he
  | killGroup s => exact killGroup_groupExists s he
  | killRoot s =>
    obtain ⟨hl, hz, hroot⟩ := Tree.groupExists_eq_false_iff.mp he
    refine Tree.groupExists_eq_false_iff.mpr
      ⟨(Tree.liveFrom_killRoot t s).groupLive hl, ?_, fun st hst => ?_⟩
    · rw [← hz]; unfold Tree.killRoot; split <;> rfl
    · unfold Tree.killRoot at hst ⊢
      split at hst
      · next hlive =>
        rw [if_pos hlive, Bool.eq_false_iff]
        exact fun hin => Bool.eq_false_iff.mp hl (Tree.groupLive_iff.mpr
          ⟨.root, t.leader, Tree.proc?_root_eq_some.mpr ⟨Tree.rootLive_iff.mp hlive, rfl⟩, hin⟩)
      · next hlive => rw [if_neg hlive]; exact hroot st hst
  | reap hz =>
    obtain ⟨hl, hzom, -⟩ := Tree.groupExists_eq_false_iff.mp he
    exact Tree.groupExists_eq_false_iff.mpr
      ⟨(live (.reap hz)).groupLive hl, hzom, fun st hst => by cases hst⟩
  | setBuf s bs =>
    obtain ⟨hl, hz, hroot⟩ := Tree.groupExists_eq_false_iff.mp he
    refine Tree.groupExists_eq_false_iff.mpr ⟨(live (.setBuf s bs)).groupLive hl, ?_, ?_⟩
    · rw [Tree.setBuf_zombies, hz]
    · rw [Tree.setBuf_root, Tree.setBuf_leader]; exact hroot

end ForcedMove

namespace TreeMove

variable {env : Env} {t t' : Tree}

theorem live (h : TreeMove env t t') : Tree.LiveFrom t t' := by
  cases h with
  | proc h => exact procStep_live h
  | forced h => exact h.live

/-- A root that lives may become a zombie, and a zombie may be reaped. -/
theorem root (h : TreeMove env t t') :
    t'.root = t.root ∨ (t.root = .live ∧ ∃ status, t'.root = .zombie status) ∨
      ∃ status, t.root = .zombie status ∧ t'.root = .reaped status := by
  cases h with
  | proc h =>
    rcases procStep_root h with hs | hz
    · exact .inl hs
    · exact .inr (.inl hz)
  | forced h => exact h.root

/-- A reaped root stays reaped, with its status. -/
theorem reaped (h : TreeMove env t t') {status : Option ℤ} (hr : t.root = .reaped status) :
    t'.root = .reaped status := by
  rcases h.root with hs | ⟨hs, -⟩ | ⟨_, hs, -⟩
  · exact hs.trans hr
  · rw [hr] at hs; cases hs
  · rw [hr] at hs; cases hs

/-- Nobody but `spawn` brings a root into being, and nobody undoes it. -/
theorem unborn (h : TreeMove env t t') : t'.root = .unborn ↔ t.root = .unborn := by
  rcases h.root with hs | ⟨hl, status, hz⟩ | ⟨status, hz, hr⟩
  · rw [hs]
  · simp [hl, hz]
  · simp [hz, hr]

/-- A group that does not exist is not created again. -/
theorem groupExists (h : TreeMove env t t') (he : t.groupExists = false) :
    t'.groupExists = false := by
  cases h with
  | proc h => exact procStep_groupExists h he
  | forced h => exact h.groupExists he

end TreeMove

/-! ### One run among many -/

section Runs

variable [DecidableEq ι]

/-- The label is a step of a thread or a process of run `i`, or a kill of its
tree by a cancelling thread. -/
def Label.touches (i : ι) : Label ι → Bool
  | .main j _ | .monitor j _ | .wait j _ | .drain j _ _ | .proc j _
  | .cancel _ (.kill j _) => decide (j = i)
  | .cancel _ _ => false

/-- What a step of the system does to run `i`. -/
inductive RunMove (env : Env) (c : RunConfig) (i : ι) (hd : CancelHandle ι) (r : Run) :
    Label ι → Run → Prop
  | main {a hd' r'} (h : MainMove env c i hd r a hd' r') : RunMove env c i hd r (.main i a) r'
  | monitor {a r'} (h : MonitorMove env r a r') : RunMove env c i hd r (.monitor i a) r'
  | wait {a t o x} (h : WaitMove env c.captureOutput r.tree r.output r.waiter a t o x) :
      RunMove env c i hd r (.wait i a) { r with tree := t, output := o, waiter := x }
  | drain {s a t o} (h : DrainMove c.captureOutput s r.tree r.output a t o) :
      RunMove env c i hd r (.drain i s a) { r with tree := t, output := o }
  | proc {a t} (h : procStep env r.tree a = some t) :
      RunMove env c i hd r (.proc i a) { r with tree := t }
  | cancelKill {k a p t p'} (h : killEscalatingStep env .killGrace r.tree p a = some (t, p')) :
      RunMove env c i hd r (.cancel k (.kill i a)) { r with tree := t }
  | other {l} (h : l.touches i = false) : RunMove env c i hd r l r

@[simp] theorem setRun_runs_self (w : World ι) (i : ι) (r : Run) : (w.setRun i r).runs i = r := by
  simp [World.setRun]

theorem setRun_runs_ne (w : World ι) {i j : ι} (r : Run) (h : j ≠ i) :
    (w.setRun i r).runs j = w.runs j := by
  simp [World.setRun, h]

@[simp] theorem setRun_handle (w : World ι) (i : ι) (r : Run) :
    (w.setRun i r).handle = w.handle := rfl

@[simp] theorem setRun_callers (w : World ι) (i : ι) (r : Run) :
    (w.setRun i r).callers = w.callers := rfl

@[simp] theorem setCaller_runs (w : World ι) (k : CallerId ι) (c : Caller ι) :
    (w.setCaller k c).runs = w.runs := rfl

@[simp] theorem setCaller_handle (w : World ι) (k : CallerId ι) (c : Caller ι) :
    (w.setCaller k c).handle = w.handle := rfl

@[simp] theorem setCaller_callers_self (w : World ι) (k : CallerId ι) (c : Caller ι) :
    (w.setCaller k c).callers k = c := by
  simp [World.setCaller]

theorem setCaller_callers_ne (w : World ι) {k l : CallerId ι} (c : Caller ι) (h : l ≠ k) :
    (w.setCaller k c).callers l = w.callers l := by
  simp [World.setCaller, h]

@[simp] theorem setTree_handle (w : World ι) (i : ι) (t : Tree) :
    (w.setTree i t).handle = w.handle := rfl

@[simp] theorem setTree_callers (w : World ι) (i : ι) (t : Tree) :
    (w.setTree i t).callers = w.callers := rfl

@[simp] theorem setTree_runs_self (w : World ι) (i : ι) (t : Tree) :
    (w.setTree i t).runs i = { w.runs i with tree := t } := by
  simp [World.setTree]

/-! A move of a thread is a step of the system. -/

section Steps

variable {env : Env} {cfg : ι → RunConfig} {w : World ι} {i : ι}

theorem step_of_mainMove {a : MainAct} {hd : CancelHandle ι} {r : Run}
    (h : MainMove env (cfg i) i w.handle (w.runs i) a hd r)
    (hends : a.endsCallback = true → w.callers (.callback i) = .idle) :
    step env cfg w (.main i a) = some (World.setRun { w with handle := hd } i r) := by
  have hheld : ¬(a.endsCallback = true ∧ w.callers (.callback i) ≠ .idle) :=
    fun ⟨ha, hne⟩ => hne (hends ha)
  simp only [step, if_neg hheld, h.step, Option.map_some]

theorem step_of_waitMove {a : WaitAct} {t : Tree} {o : Output} {x : Waiter}
    (h : WaitMove env (cfg i).captureOutput (w.runs i).tree (w.runs i).output (w.runs i).waiter a
      t o x) :
    step env cfg w (.wait i a) =
      some (w.setRun i { w.runs i with tree := t, output := o, waiter := x }) := by
  simp only [step, h.step, Option.map_some]

theorem step_of_drainMove {s : Stream} {a : DrainAct} {t : Tree} {o : Output}
    (h : DrainMove (cfg i).captureOutput s (w.runs i).tree (w.runs i).output a t o) :
    step env cfg w (.drain i s a) =
      some (w.setRun i { w.runs i with tree := t, output := o }) := by
  simp only [step, h.step, Option.map_some]

end Steps

/-- **A step of the system moves each run as `RunMove` says.** -/
theorem runMove_of_step {env : Env} {cfg : ι → RunConfig} {w w' : World ι} {l : Label ι}
    (h : step env cfg w l = some w') (i : ι) :
    RunMove env (cfg i) i w.handle (w.runs i) l (w'.runs i) := by
  -- a thread of another run leaves this one alone
  have away : ∀ {j : ι} {r : Run} {v : World ι}, v.runs = w.runs → l.touches i = decide (j = i) →
      j ≠ i → RunMove env (cfg i) i w.handle (w.runs i) l ((v.setRun j r).runs i) := by
    intro j r v hv ht hne
    rw [setRun_runs_ne _ _ hne.symm, hv]
    exact .other (by rw [ht]; exact decide_eq_false hne)
  cases l with
  | main j a =>
    simp only [step] at h
    split at h
    · cases h
    · obtain ⟨⟨hd, r⟩, hr, h⟩ := Option.map_eq_some_iff.mp h
      cases h
      by_cases hj : j = i
      · subst hj
        rw [setRun_runs_self]
        exact .main (mainMove_of_step hr)
      · exact away rfl rfl hj
  | monitor j a =>
    obtain ⟨r, hr, h⟩ := Option.map_eq_some_iff.mp h
    cases h
    by_cases hj : j = i
    · subst hj
      rw [setRun_runs_self]
      exact .monitor (monitorMove_of_step hr)
    · exact away rfl rfl hj
  | wait j a =>
    obtain ⟨⟨t, o, x⟩, hr, h⟩ := Option.map_eq_some_iff.mp h
    cases h
    by_cases hj : j = i
    · subst hj
      rw [setRun_runs_self]
      exact .wait (waitMove_of_step hr)
    · exact away rfl rfl hj
  | drain j s a =>
    obtain ⟨⟨t, o⟩, hr, h⟩ := Option.map_eq_some_iff.mp h
    cases h
    by_cases hj : j = i
    · subst hj
      rw [setRun_runs_self]
      exact .drain (drainMove_of_step hr)
    · exact away rfl rfl hj
  | cancel k a =>
    cases cancelMove_of_step h with
    | @killMore j _ _ _ _ pc hk | @killDone j _ _ _ _ pc hk =>
      rw [setCaller_runs]
      by_cases hj : j = i
      · subst hj
        rw [setTree_runs_self]
        exact .cancelKill hk
      · exact away rfl rfl hj
    | _ => exact .other rfl
  | proc j a =>
    obtain ⟨t, ht, h⟩ := Option.map_eq_some_iff.mp h
    cases h
    by_cases hj : j = i
    · subst hj
      rw [setTree_runs_self]
      exact .proc ht
    · exact away rfl rfl hj

end Runs

/-- The threads of the program change a tree only by a `ForcedMove`, the steps of `spawn`
apart. -/
theorem RunMove.forced [DecidableEq ι] {env : Env} {c : RunConfig} {i : ι} {hd : CancelHandle ι}
    {r r' : Run} {l : Label ι} (h : RunMove env c i hd r l r')
    (spawned : ∀ a, l ≠ .main i (.spawn a)) (proc : ∀ a, l ≠ .proc i a) :
    ForcedMove r.tree r'.tree := by
  cases h with
  | main h =>
    cases h with
    | spawnMore | spawnOk | spawnFailed => exact absurd rfl (spawned _)
    | killMore _ h | killDone _ h | guardMore _ h | guardDone _ h =>
      exact forcedMove_of_killEscalating h
    | guardReap _ h => exact forcedMove_of_reapAbandoned h
    | @joinWait res | @waitReturned res => cases res <;> exact .stay
    | _ => exact .stay
  | monitor h =>
    cases h with
    | killMore _ h | killDone _ h => exact forcedMove_of_killEscalating h
    | _ => exact .stay
  | wait h =>
    cases h with
    | childWait _ hz => exact .reap hz
    | killTree _ h => exact forcedMove_of_killTree h
    | _ => exact .stay
  | drain h =>
    cases h with
    | readBytes => exact .setBuf _ _
    | _ => exact .stay
  | proc => exact absurd rfl (proc _)
  | cancelKill h => exact forcedMove_of_killEscalating h
  | other => exact .stay

/-- A tree changes only by a `TreeMove`, the steps of `spawn` apart. -/
theorem RunMove.tree [DecidableEq ι] {env : Env} {c : RunConfig} {i : ι} {hd : CancelHandle ι}
    {r r' : Run} {l : Label ι} (h : RunMove env c i hd r l r')
    (spawned : ∀ a, l ≠ .main i (.spawn a)) : TreeMove env r.tree r'.tree := by
  have forced := h.forced spawned
  cases h with
  | proc h => exact .proc h
  | main | monitor | wait | drain | cancelKill => exact .forced (forced (by simp))
  | other => exact .forced .stay

end AerCore
