import AerCore.Answer

/-!
# The lifecycle contract of a run

Whatever the deadline, the cancelling threads, the pipes and the OS do, a run
that returns has emitted one of five sequences of events and returned the result
that goes with it.  The argument is an invariant of the run thread: its program
counter tells how far the event sequence has come, and the flags it carries
towards the verdict are backed by the configuration.

## Main definitions

* `ShapeKind`, `HasShape` — the five shapes of a run.
* `Lifecycle` — the invariant.

## Main results

* `lifecycle_of_reaches` — the invariant holds in every reachable world.
* `returned_run_has_one_shape` — **a run that returns has exactly one of the five
  shapes**, and never reports an invalid transition or a failed kill.
-/

namespace AerCore

variable {ι : Type*}

/-! ### The shapes of a run -/

/-- Chunks of captured output, and none when capture is off. -/
def ChunksOnly (c : RunConfig) (es : List Event) : Prop :=
  (∀ e ∈ es, e.isChunk = true) ∧ (c.captureOutput = false → es = [])

/-- The five shapes of a run. -/
inductive ShapeKind
  | spawnFailed
  | natural
  | timedOut
  | cancelled
  | waitFailed
  deriving DecidableEq, Repr

/-- The events and the result have the given shape; `root` is the root as the OS
left it. -/
def HasShape (c : RunConfig) (root : Root) (events : List Event) (res : Except AerError Unit) :
    ShapeKind → Prop
  | .spawnFailed => events = [] ∧ ∃ e, res = .error (.spawnFailed e)
  | .natural => ∃ pid chunks status, ChunksOnly c chunks ∧ root = .reaped status ∧
      events = .started pid :: (chunks ++ [.exited (status.getD (-1)) .naturalExit]) ∧
      res = .ok ()
  | .timedOut => c.timeout.isSome = true ∧ ∃ pid chunks, ChunksOnly c chunks ∧
      events = .started pid :: (chunks ++ [.exited (-1) .timedOut]) ∧ res = .error .timedOut
  | .cancelled => c.cancel = true ∧ ∃ pid chunks, ChunksOnly c chunks ∧
      events = .started pid :: (chunks ++ [.exited (-1) .cancelRequested]) ∧
      res = .error .cancelled
  | .waitFailed => ∃ pid chunks e, ChunksOnly c chunks ∧ events = .started pid :: chunks ∧
      res = .error (.waitFailed e)

/-! ### The invariant -/

/-- Whether the place lies on the capture path or on the other one. -/
def MainPc.captures? : MainPc → Option Bool
  | .openChannel | .dropTx | .startWait | .pump | .inChunk | .recvWait | .joinWait _ => some true
  | .callWait | .inWait => some false
  | _ => none

/-- `Started` has been emitted, and since then only chunks. -/
def Running (c : RunConfig) (r : Run) : Prop :=
  r.machine.state = .running ∧ ∃ pid chunks, ChunksOnly c chunks ∧ r.events = .started pid :: chunks

/-- The flags read for the verdict are backed by the configuration. -/
def FlagsBacked (c : RunConfig) (wasTimedOut wasCancelled : Bool) : Prop :=
  (wasTimedOut = true → c.timeout.isSome = true) ∧ (wasCancelled = true → c.cancel = true)

/-- How far the events have come, by the place of the run thread. -/
def LifecycleAt (c : RunConfig) (r : Run) : MainPc → Prop
  | .spawn _ | .toRunning _ => r.events = [] ∧ r.machine.state = .created
  | .loadKillFired _ t => Running c r ∧ FlagsBacked c t false
  | .toExited _ t cn => Running c r ∧ FlagsBacked c t cn
  | .inExited t cn => FlagsBacked c t cn ∧ ∃ pid chunks status, ChunksOnly c chunks ∧
      r.tree.root = .reaped status ∧
      r.events = .started pid :: (chunks ++ [.exited (exitCode (status.getD (-1)) t cn)
        (exitReason t cn)])
  | .leave o | .guardKill _ o | .guardReap o | .finished o =>
      ∀ res, o = .ret res → ∃ k, HasShape c r.tree.root r.events res k
  | _ => Running c r

/-- **The lifecycle invariant.** -/
structure Lifecycle (c : RunConfig) (r : Run) : Prop where
  /-- The run thread is on the path the configuration asks for. -/
  path : ∀ b, r.main.captures? = some b → c.captureOutput = b
  /-- The monitor exists only with a timeout. -/
  monitor : r.monitor ≠ .idle → c.timeout.isSome = true
  /-- The flag is set only with a timeout. -/
  timedOut : r.timedOut = true → c.timeout.isSome = true
  /-- The events have come as far as the run thread has. -/
  events : LifecycleAt c r r.main

/-! ### Each move keeps it -/

section Moves

variable {env : Env} {c : RunConfig} {i : ι} {hd hd' : CancelHandle ι} {r r' : Run}
  {l : Label ι}

/-- The monitor is started, and the flag set, only with a timeout. -/
theorem timeout_move [DecidableEq ι] (h : RunMove env c i hd r l r')
    (hm : r.monitor ≠ .idle → c.timeout.isSome = true)
    (ht : r.timedOut = true → c.timeout.isSome = true) :
    (r'.monitor ≠ .idle → c.timeout.isSome = true) ∧
      (r'.timedOut = true → c.timeout.isSome = true) := by
  cases h with
  | main h =>
    cases h with
    | startMonitor _ timeout => exact ⟨fun _ => timeout, ht⟩
    | @joinWait res | @waitReturned res => cases res <;> exact ⟨hm, ht⟩
    | _ => exact ⟨hm, ht⟩
  | monitor h =>
    have htimeout := hm h.monitor_ne_idle
    exact ⟨fun _ => htimeout, fun _ => htimeout⟩
  | wait | drain | proc | cancelKill | other => exact ⟨hm, ht⟩

theorem HasShape.mono {root root' : Root} {es : List Event} {res : Except AerError Unit}
    {k : ShapeKind} (keep : ∀ status, root = .reaped status → root' = .reaped status)
    (h : HasShape c root es res k) : HasShape c root' es res k := by
  cases k with
  | natural =>
    obtain ⟨pid, chunks, status, hc, hr, he⟩ := h
    exact ⟨pid, chunks, status, hc, keep status hr, he⟩
  | spawnFailed | timedOut | cancelled | waitFailed => exact h

theorem LifecycleAt.mono {m : MainPc} (hevents : r'.events = r.events)
    (hmachine : r'.machine = r.machine)
    (keep : ∀ status, r.tree.root = .reaped status → r'.tree.root = .reaped status)
    (h : LifecycleAt c r m) : LifecycleAt c r' m := by
  have hrun : Running c r → Running c r' := by
    unfold Running
    rw [hevents, hmachine]
    exact id
  cases m with
  | spawn | toRunning =>
    simp only [LifecycleAt, hevents, hmachine] at h ⊢
    exact h
  | loadKillFired | toExited => exact ⟨hrun h.1, h.2⟩
  | inExited t cn =>
    obtain ⟨hf, pid, chunks, status, hc, hr, he⟩ := h
    exact ⟨hf, pid, chunks, status, hc, keep status hr, hevents.trans he⟩
  | leave o | guardKill _ o | guardReap o | finished o =>
    intro res ho
    obtain ⟨k, hk⟩ := h res ho
    exact ⟨k, by rw [hevents]; exact hk.mono keep⟩
  | _ => exact hrun h

theorem ChunksOnly.concat {es : List Event} {m : ChunkMsg} (hcap : c.captureOutput = true)
    (h : ChunksOnly c es) : ChunksOnly c (es ++ [m.event]) := by
  refine ⟨fun e he => ?_, fun hoff => by rw [hcap] at hoff; cases hoff⟩
  rcases List.mem_append.mp he with he | he
  · exact h.1 e he
  · obtain rfl := List.mem_singleton.mp he
    cases m <;> rfl

/-- The configuration chooses between the two paths. -/
theorem MainEdge.path {m m' : MainPc} {a : MainAct} (h : MainEdge env c m a m')
    (hp : ∀ b, m.captures? = some b → c.captureOutput = b) {b : Bool}
    (hb : m'.captures? = some b) : c.captureOutput = b := by
  cases h with
  | monitorCapture capture | monitorPlain capture => cases hb; exact capture
  | openChannel | dropTx | startWait | recv | recvClosed | chunkReturns | recvWait | callWait =>
    exact hp b hb
  | _ => cases hb

theorem path_move [DecidableEq ι] (h : RunMove env c i hd r l r')
    (hp : ∀ b, r.main.captures? = some b → c.captureOutput = b) :
    ∀ b, r'.main.captures? = some b → c.captureOutput = b := by
  intro b hb
  cases h with
  | main h => exact h.edge.path hp hb
  | monitor h => exact hp b (h.main_eq ▸ hb)
  | wait | drain | proc | cancelKill | other => exact hp b hb

/-- The verdict gives the run its shape. -/
theorem hasShape_of_verdict {t cn : Bool} {root : Root} {es : List Event} {pid : ℕ}
    {chunks : List Event} {status : Option ℤ} (hf : FlagsBacked c t cn) (hc : ChunksOnly c chunks)
    (hr : root = .reaped status)
    (he : es = .started pid ::
      (chunks ++ [.exited (exitCode (status.getD (-1)) t cn) (exitReason t cn)])) :
    ∃ k, HasShape c root es (runResult t cn) k := by
  cases t with
  | true => exact ⟨.timedOut, hf.1 rfl, pid, chunks, hc, he, rfl⟩
  | false =>
    cases cn with
    | true => exact ⟨.cancelled, hf.2 rfl, pid, chunks, hc, he, rfl⟩
    | false => exact ⟨.natural, pid, chunks, status, hc, hr, he, rfl⟩

/-- An error of `wait` ends the run without `Exited`. -/
theorem lifecycleAt_afterWait {res : Except AerError ℤ} (hrun : Running c r)
    (ha : WaitAnswer env r.tree r.output res) :
    LifecycleAt c (r.afterWait c res) (r.afterWait c res).main := by
  cases res with
  | ok code =>
    simp only [Run.afterWait]
    split <;> exact hrun
  | error e =>
    obtain ⟨e', rfl⟩ := ha
    obtain ⟨-, pid, chunks, hc, hev⟩ := hrun
    intro res ho
    cases ho
    exact ⟨.waitFailed, pid, chunks, e', hc, hev, rfl⟩

/-- The run thread brings the events as far as it goes itself. -/
theorem MainMove.lifecycleAt {a : MainAct} (h : MainMove env c i hd r a hd' r')
    (hl : Lifecycle c r) (ha : Answered env r)
    (keep : (∀ s, a ≠ .spawn s) → ∀ status, r.tree.root = .reaped status →
      r'.tree.root = .reaped status) : LifecycleAt c r' r'.main := by
  have he := hl.events
  cases h with
  | spawnMore pc | spawnOk pc =>
    rw [pc] at he
    exact he
  | spawnFailed pc =>
    rw [pc] at he
    intro res ho
    cases ho
    exact ⟨.spawnFailed, he.1, _, rfl⟩
  | @started pid m pc hm =>
    rw [pc] at he
    refine ⟨(transition_eq_ok_iff.mp hm).1, pid, [], ⟨by simp, fun _ => rfl⟩, ?_⟩
    simp [he.1]
  | startedRefused pc hm =>
    rw [pc] at he
    simp [StateMachine.transition, he.2] at hm
  | startedReturns pc | loadCancelled pc | loadFired pc =>
    rw [pc] at he
    simp only
    split <;> exact he
  | startMonitor pc | noMonitor pc =>
    rw [pc] at he
    simp only [RunConfig.afterMonitor]
    split <;> exact he
  | startedPanics | startMonitorFails | startWaitFails | chunkPanics | waitPanicked
  | exitedPanics => exact fun res ho => by cases ho
  | wire pc | probeMore pc | probeAlive pc | probeDead pc | fire pc | killMore pc | killDone pc
  | openChannel pc | dropTx pc | startWait pc | recvClosed pc | chunkReturns pc | recvWait pc
  | callWait pc | clear pc | stopMonitor pc =>
    rw [pc] at he
    exact he
  | @recv m q pc hq =>
    have hcap := hl.path true (by rw [pc]; rfl)
    rw [pc] at he
    obtain ⟨hm, pid, chunks, hc, hev⟩ := he
    exact ⟨hm, pid, chunks ++ [m.event], hc.concat hcap, by simp [hev]⟩
  | recvWaitLost pc =>
    rw [pc] at he
    obtain ⟨-, pid, chunks, hc, hev⟩ := he
    intro res ho
    cases ho
    exact ⟨.waitFailed, pid, chunks, _, hc, hev, rfl⟩
  | @joinWait res pc =>
    rw [pc] at he
    exact lifecycleAt_afterWait he (ha.main res (by rw [pc]; rfl)).2
  | @waitReturned res pc returned =>
    have hw := ha.wait
    rw [returned] at hw
    rw [pc] at he
    exact lifecycleAt_afterWait he hw
  | loadTimedOut pc =>
    rw [pc] at he
    exact ⟨he, hl.timedOut, fun h => by cases h⟩
  | loadKillFired pc =>
    rw [pc] at he
    exact ⟨he.1, he.2.1, fun h => (Bool.and_eq_true _ _ ▸ h).1⟩
  | @exited code t cn m pc hm =>
    obtain ⟨-, ⟨status, hr, rfl⟩, -⟩ := ha.main (.ok code) (by rw [pc]; rfl)
    rw [pc] at he
    obtain ⟨⟨-, pid, chunks, hc, hev⟩, hf⟩ := he
    exact ⟨hf, pid, chunks, status, hc, hr, by simp [hev]⟩
  | exitedRefused pc hm =>
    rw [pc] at he
    simp [StateMachine.transition, he.1.1] at hm
  | exitedReturns pc =>
    rw [pc] at he
    obtain ⟨hf, pid, chunks, status, hc, hr, hev⟩ := he
    intro res ho
    cases ho
    exact hasShape_of_verdict hf hc hr hev
  | dropLocals pc =>
    rw [pc] at he
    simp only
    split <;> exact he
  | guardMore pc | guardDone pc | guardReap pc =>
    rw [pc] at he
    intro res ho
    obtain ⟨k, hk⟩ := he res ho
    exact ⟨k, hk.mono (keep (by simp))⟩

theorem lifecycle_move [DecidableEq ι] (h : RunMove env c i hd r l r') (hl : Lifecycle c r)
    (ha : Answered env r) : Lifecycle c r' := by
  obtain ⟨hmon, hto⟩ := timeout_move h hl.monitor hl.timedOut
  refine ⟨path_move h hl.path, hmon, hto, ?_⟩
  have keep (hsp : ∀ a, l ≠ .main i (.spawn a)) (status : Option ℤ)
      (hr : r.tree.root = .reaped status) : r'.tree.root = .reaped status := (h.tree hsp).reaped hr
  cases h with
  | main h =>
    refine h.lifecycleAt hl ha fun hsp => keep fun s hs => ?_
    cases hs
    exact hsp s rfl
  | monitor h =>
    rw [h.main_eq]
    exact hl.events.mono (by cases h <;> rfl) (by cases h <;> rfl) (keep (by simp))
  | wait | drain | proc | cancelKill =>
    exact LifecycleAt.mono (r := r) rfl rfl (keep (by simp)) hl.events
  | other => exact hl.events

end Moves

/-! ### Whole runs -/

section Runs

variable [DecidableEq ι] {env : Env} {cfg : ι → RunConfig} {tr : List (Label ι)} {w : World ι}

theorem lifecycle_init (env : Env) (c : RunConfig) : Lifecycle c (Run.init env) where
  path := fun b hb => by cases hb
  monitor := fun h => absurd rfl h
  timedOut := fun h => by cases h
  events := ⟨rfl, rfl⟩

/-- The lifecycle invariant holds of every run in every reachable world. -/
theorem lifecycle_of_reaches (h : Reaches env cfg tr w) (i : ι) :
    Lifecycle (cfg i) (w.runs i) := by
  refine Lts.exec_invariant (P := fun _ w => Lifecycle (cfg i) (w.runs i)) ?_ ?_ h
  · exact lifecycle_init env (cfg i)
  · intro _ w l w' hw hl hstep
    exact lifecycle_move (runMove_of_step hstep i) hl (answered_of_reaches hw i)

/-- The shape that goes with a result. -/
theorem HasShape.unique {c : RunConfig} {root : Root} {es : List Event}
    {res : Except AerError Unit} {k k' : ShapeKind} (h : HasShape c root es res k)
    (h' : HasShape c root es res k') : k' = k := by
  cases k <;> cases k' <;> simp only [HasShape] at h h' <;> grind

theorem HasShape.eq_natural {c : RunConfig} {root : Root} {es : List Event} {k : ShapeKind}
    (h : HasShape c root es (.ok ()) k) : k = .natural := by
  cases k <;> simp [HasShape] at h ⊢

theorem HasShape.eq_cancelled {c : RunConfig} {root : Root} {es : List Event} {k : ShapeKind}
    (h : HasShape c root es (.error .cancelled) k) : k = .cancelled := by
  cases k <;> simp [HasShape] at h ⊢

/-- A run that returns has the shape that goes with its result. -/
theorem hasShape_of_returned (h : Reaches env cfg tr w) {i : ι} {res : Except AerError Unit}
    (hret : (w.runs i).main = .finished (.ret res)) :
    ∃ k, HasShape (cfg i) (w.runs i).tree.root (w.runs i).events res k := by
  have hl := (lifecycle_of_reaches h i).events
  rw [hret] at hl
  exact hl res rfl

/-- **A run that returns has exactly one of the five shapes**, and never reports an
invalid transition or a failed kill. -/
theorem returned_run_has_one_shape (h : Reaches env cfg tr w) {i : ι} {res : Except AerError Unit}
    (hret : (w.runs i).main = .finished (.ret res)) :
    (∃! k, HasShape (cfg i) (w.runs i).tree.root (w.runs i).events res k) ∧
      (∀ s t, res ≠ .error (.invalidStateTransition s t)) ∧ ∀ e, res ≠ .error (.killFailed e) := by
  obtain ⟨k, hk⟩ := hasShape_of_returned h hret
  refine ⟨⟨k, hk, fun k' hk' => hk.unique hk'⟩, ?_, ?_⟩
  · rintro s t rfl
    cases k <;> simp [HasShape] at hk
  · rintro e rfl
    cases k <;> simp [HasShape] at hk

end Runs

/-- A machine with the usual pipes, where nothing is refused and no descendant leaves
its group. -/
def Env.posix : Env := ⟨.unix, true, true, 65536⟩

/-- From the spawn to the monitor of a run without a timeout, on a handle that is not cancelled. -/
def beginRun (i : ι) (pid : ℕ) : List (Label ι) :=
  [.main i (.spawn (.command (.ok pid))), .main i .started, .main i .startedReturns,
    .main i .wire, .main i (.loadCancelled false), .main i (.startMonitor true)]

/-- The call of `wait` for a root that exits by itself, without capture. -/
def waitNatural (i : ι) (status : ℤ) : List (Label ι) :=
  [.main i .callWait, .wait i (.startOut true), .wait i (.startErr true),
    .proc i (.rootExit (some status)), .wait i (.childWait (.ok ())), .wait i (.killTree .absent),
    .drain i .stdout (.read .eof), .drain i .stderr (.read .eof), .wait i .joinOut,
    .wait i .joinErr, .main i .waitReturned]

/-- The end of a run, from the slot to the return. -/
def endRun (i : ι) (timedOut killFired : Bool) : List (Label ι) :=
  [.main i .clear, .main i .stopMonitor, .main i (.loadTimedOut timedOut),
    .main i (.loadKillFired killFired), .main i .exited, .main i .exitedReturns,
    .main i .dropLocals]

/-- A run whose root exits by itself. -/
def naturalRun : List (Label Unit) :=
  beginRun () 7 ++ waitNatural () 3 ++ endRun () false false

/-- It has one shape, the natural one. -/
theorem naturalRun_has_one_shape :
    ∃ w, Reaches Env.posix (fun _ => ⟨none, false, true⟩) naturalRun w ∧
      (w.runs ()).events = [.started 7, .exited 3 .naturalExit] ∧
      ∃! k, HasShape ⟨none, false, true⟩ (w.runs ()).tree.root (w.runs ()).events (.ok ()) k := by
  obtain ⟨w, hw, hret, hev⟩ :
      ∃ w, Reaches Env.posix (fun _ => ⟨none, false, true⟩) naturalRun w ∧
        (w.runs ()).main = .finished (.ret (.ok ())) ∧
        (w.runs ()).events = [.started 7, .exited 3 .naturalExit] :=
    Lts.exists_exec_of_any (by decide +kernel)
  exact ⟨w, hw, hev, (returned_run_has_one_shape hw hret).1⟩

end AerCore
