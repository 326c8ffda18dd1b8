import AerCore.Precedence
import AerCore.Slot

/-!
# Triggers after the tree is dead

A trigger that comes when every process of the tree has terminated should change nothing:
the run is to report the natural end of its root.  What stands between a late trigger and
the verdict is the probe of `tree_alive`, and on Unix a process that has terminated still
answers it until it has been waited for.  The root is waited for by `wait`, which is not
called before the callback for `Started` has returned.  So the natural end is reported in
every run in which no probe meets a process that is dead and not yet reaped.

## Main definitions

* `Tree.terminated`, `Tree.unreaped` — the tree has come and gone; a part of it still
  answers a probe.
* `Label.triggers`, `Label.probes`, `Label.mishap` — the first call of `cancel()` and the
  deadline, the probes they lead to, and what else can go wrong.
* `Calm` — no trigger has had an effect.

## Main results

* `calm_of_reaches` — the invariant.
* `late_trigger_changes_nothing` — **a trigger after the end of the tree**.
* `zombieProbe_reports_cancellation` — a zombie that answers the probe is reported as
  cancelled.
-/

namespace AerCore

variable {ι : Type*}

/-! ### Trees that have come and gone -/

/-- The tree was spawned and every process of it has terminated. -/
def Tree.terminated (t : Tree) : Bool := t.dead && decide (t.root ≠ .unborn)

/-- A process of the tree has terminated and nobody has reaped it. -/
def Tree.unreaped (t : Tree) : Bool := (t.pidExists && !t.rootLive) || decide (0 < t.zombies)

/-- A tree that is dead and reaped does not answer a probe. -/
theorem treeAliveStep_of_reaped {env : Env} {t : Tree} {p : ProbePc} {x : Reply}
    (hdead : t.dead = true) (hreaped : t.unreaped = false) (hp : p ≠ .query) :
    treeAliveStep env t p x ≠ some (.inr true) := by
  simp only [Tree.dead, Bool.and_eq_true, Bool.not_eq_true', List.isEmpty_iff] at hdead
  obtain ⟨hlive, hkids⟩ := hdead
  simp only [Tree.unreaped, hlive, Bool.not_false, Bool.and_true, Bool.or_eq_false_iff,
    decide_eq_false_iff_not] at hreaped
  obtain ⟨hpid, hzombies⟩ := hreaped
  have hgroup : t.groupExists = false := by simp [Tree.groupExists, hpid, hkids, hzombies]
  cases p with
  | group => cases x <;> simp [treeAliveStep, Tree.groupReply, Reply.fits, hgroup]
  | pid => cases x <;> simp [treeAliveStep, Tree.pidReply, Reply.fits, hpid]
  | query => exact absurd rfl hp

theorem TreeMove.terminated {env : Env} {t t' : Tree} (h : TreeMove env t t')
    (ht : t.terminated = true) : t'.terminated = true := by
  simp only [Tree.terminated, Bool.and_eq_true, decide_eq_true_eq] at ht ⊢
  exact ⟨h.live.dead ht.1, fun hu => ht.2 (h.unborn.mp hu)⟩

/-! ### Triggers, probes and mishaps -/

/-- The first call of `cancel()`, or the deadline of run `i`. -/
def Label.triggers [DecidableEq ι] (i : ι) : Label ι → Bool
  | .cancel _ (.swap was) => !was
  | .monitor j .deadline => decide (j = i)
  | _ => false

/-- An OS call of the `tree_alive` that a trigger of run `i` leads to. -/
def Label.probes [DecidableEq ι] (i : ι) : Label ι → Bool
  | .main j (.probe _) | .cancel _ (.probe j _) | .monitor j (.probe _) => decide (j = i)
  | _ => false

/-- The spawn fails, or the callback panics at `Started` or at `Exited`. -/
def MainAct.breaks : MainAct → Bool
  | .spawn (.command (.error _)) | .startedPanics | .exitedPanics => true
  | _ => false

/-- A failure of run `i`, of its spawn included, or a panic of its callback. -/
def Label.mishap [DecidableEq ι] (i : ι) : Label ι → Bool
  | .main j a => decide (j = i) && (a.fails || a.breaks)
  | .wait j a => decide (j = i) && a.fails
  | _ => false

/-! ### Unix -/

/-- On Unix, `spawn` is one call, and there is no root before it. -/
def UnixSpawn (r : Run) : Prop := ∀ s, r.main = .spawn s → s = .command ∧ r.tree.root = .unborn

/-- On Unix, no probe asks for a job. -/
def UnixProbe (m : MainPc) : Prop := ∀ p, m = .probe p → p ≠ .query

section Moves

variable {env : Env} {c : RunConfig} {i : ι} {hd hd' : CancelHandle ι} {r r' : Run}
  {l : Label ι}

theorem unixSpawn_move [DecidableEq ι] (hu : env.platform = .unix)
    (h : RunMove env c i hd r l r') (hr : UnixSpawn r) : UnixSpawn r' := by
  intro s hs
  have htree := h.tree
  cases h with
  | main h =>
    obtain ⟨-, b, rfl⟩ := (hs ▸ h.edge).of_spawn
    cases h with
    | spawnOk | spawnFailed => cases hs
    | @spawnMore s₀ _ _ _ pc hstep =>
      obtain ⟨rfl, -⟩ := hr s₀ pc
      -- the one call of `spawn` on Unix is the last
      cases b with
      | command x => cases x <;> simp [spawnStep, hu] at hstep
      | _ => simp [spawnStep] at hstep
  | monitor h =>
    obtain ⟨hc, hroot⟩ := hr s (h.main_eq ▸ hs)
    exact ⟨hc, (htree (by simp)).unborn.mpr hroot⟩
  | wait | drain | proc | cancelKill =>
    obtain ⟨hc, hroot⟩ := hr s hs
    exact ⟨hc, (htree (by simp)).unborn.mpr hroot⟩
  | other => exact hr s hs

theorem MainEdge.unixProbe {m m' : MainPc} {a : MainAct} (hu : env.platform = .unix)
    (h : MainEdge env c m a m') : UnixProbe m' := by
  intro p hp
  subst hp
  cases h with
  | notFired => simp [ProbePc.entry, hu]
  | probeMore => simp

theorem RunMove.unixMonitor [DecidableEq ι] (hu : env.platform = .unix)
    (h : RunMove env c i hd r l r') (hr : ∀ p, r.monitor = .probe p → p ≠ .query) :
    ∀ p, r'.monitor = .probe p → p ≠ .query := by
  intro p hp
  cases h with
  | main h =>
    cases h with
    | startMonitor => cases hp
    | @joinWait res | @waitReturned res => cases res <;> exact hr p hp
    | _ => exact hr p hp
  | monitor h =>
    cases h with
    | deadline =>
      cases hp
      simp [ProbePc.entry, hu]
    | probeMore _ h =>
      cases hp
      obtain ⟨-, rfl, -⟩ := treeAliveStep_eq_more h
      simp
    | _ => cases hp
  | wait | drain | proc | cancelKill | other => exact hr p hp

end Moves

/-- On Unix the run goes through the Unix backend. -/
structure OnUnix (w : World ι) (i : ι) : Prop where
  /-- In `spawn`. -/
  spawn : UnixSpawn (w.runs i)
  /-- In the wiring block. -/
  main : UnixProbe (w.runs i).main
  /-- In the monitor. -/
  monitor : ∀ p, (w.runs i).monitor = .probe p → p ≠ .query
  /-- In a call of `cancel()`. -/
  callers : ∀ k p, w.callers k = .probe i p → p ≠ .query

section Runs

variable [DecidableEq ι] {env : Env} {cfg : ι → RunConfig} {tr : List (Label ι)}
  {w w' : World ι} {i : ι} {l : Label ι}

theorem CancelMove.unixCallers {k : CallerId ι} {a : CancelAct ι} (hu : env.platform = .unix)
    (h : CancelMove env w k a w') (hc : ∀ k p, w.callers k = .probe i p → p ≠ .query) :
    ∀ k p, w'.callers k = .probe i p → p ≠ .query := by
  intro k' p hp
  by_cases hk : k' = k
  · subst hk
    cases h with
    | lockWired =>
      rw [setCaller_callers_self, hu] at hp
      cases hp
      simp [ProbePc.entry]
    | probeMore _ h =>
      rw [setCaller_callers_self] at hp
      cases hp
      obtain ⟨-, rfl, -⟩ := treeAliveStep_eq_more h
      simp
    | _ =>
      rw [setCaller_callers_self] at hp
      cases hp
  · exact hc k' p (h.callers_ne hk ▸ hp)

theorem onUnix_of_reaches (h : Reaches env cfg tr w) (hu : env.platform = .unix) (i : ι) :
    OnUnix w i := by
  refine Lts.exec_invariant (P := fun _ w => OnUnix w i) ?_ ?_ h
  · refine ⟨fun s hs => ?_, fun p hp => ?_, fun p hp => ?_, fun k p hp => ?_⟩
    · cases hs
      exact ⟨by rw [hu]; rfl, rfl⟩
    all_goals cases hp
  · intro tr w l w' _ hw hstep
    have hmove := runMove_of_step hstep i
    refine ⟨unixSpawn_move hu hmove hw.spawn, ?_, hmove.unixMonitor hu hw.monitor, ?_⟩
    · rcases mainMove_or_stays hstep i with ⟨a, -, h⟩ | ⟨-, hm⟩
      · exact h.edge.unixProbe hu
      · rw [hm]
        exact hw.main
    · cases handleMove_of_step hstep with
      | main h => exact hw.callers
      | cancel h => exact h.unixCallers hu hw.callers
      | inner _ _ hc => rw [hc]; exact hw.callers

/-- A tree that has come and gone does not come back. -/
theorem terminated_step (h : Reaches env cfg tr w) (hu : env.platform = .unix)
    (hstep : step env cfg w l = some w') (ht : (w.runs i).tree.terminated = true) :
    (w'.runs i).tree.terminated = true := by
  have hmove := runMove_of_step hstep i
  have hspawn := (onUnix_of_reaches h hu i).spawn
  refine (hmove.tree ?_).terminated ht
  rintro a rfl
  -- while `spawn` runs there is no root yet
  have hpc : ∃ s, (w.runs i).main = .spawn s := by
    rcases mainMove_or_stays hstep i with ⟨_, hl, h⟩ | ⟨hne, -⟩
    · cases hl
      exact h.edge.spawning
    · exact absurd rfl (hne _)
  obtain ⟨s, hs⟩ := hpc
  simp [Tree.terminated, (hspawn s hs).2] at ht

/-- A probe that answers "alive" on behalf of `cancel()`, where it is made. -/
theorem probe_of_probesAlive (hstep : step env cfg w l = some w') (hl : l.probesAlive i = true) :
    ∃ p x, treeAliveStep env (w.runs i).tree p x = some (.inr true) ∧
      ((w.runs i).main = .probe p ∨ ∃ k, w.callers k = .probe i p) := by
  cases handleMove_of_step hstep with
  | @main j a _ _ h =>
    cases h with
    | probeAlive pc h =>
      obtain rfl : j = i := by
        simp only [Label.probesAlive, decide_eq_true_eq] at hl
        exact hl.1
      exact ⟨_, _, h, .inl pc⟩
    | @probeDead _ x _ h =>
      have hx : x = .absent := by simpa using treeAliveStep_eq_answer h
      simp [Label.probesAlive, hx] at hl
    | probeMore _ h =>
      obtain ⟨-, -, hx, -⟩ := treeAliveStep_eq_more h
      simp [Label.probesAlive, hx] at hl
    | _ => cases hl
  | @cancel k a _ h =>
    cases h with
    | @probeAlive j _ _ pc h =>
      obtain rfl : j = i := by
        simp only [Label.probesAlive, decide_eq_true_eq] at hl
        exact hl.1
      exact ⟨_, _, h, .inr ⟨k, pc⟩⟩
    | @probeDead _ _ x _ h =>
      have hx : x = .absent := by simpa using treeAliveStep_eq_answer h
      simp [Label.probesAlive, hx] at hl
    | probeMore _ h =>
      obtain ⟨-, -, hx, -⟩ := treeAliveStep_eq_more h
      simp [Label.probesAlive, hx] at hl
    | _ => cases hl
  | inner hin =>
    cases l with
    | main | cancel => cases hin
    | _ => cases hl

/-! ### No effect -/

/-- No trigger has had an effect on run `i`. -/
structure Calm (i : ι) (tr : List (Label ι)) (w : World ι) : Prop where
  /-- The first call of `cancel()` comes after the end of the tree. -/
  cancelled : w.handle.cancelled = true → (w.runs i).tree.terminated = true
  /-- So does the deadline. -/
  deadline : (w.runs i).monitor.fired = true → (w.runs i).tree.terminated = true
  /-- No probe on behalf of `cancel()` answers "alive". -/
  alive : ∀ l ∈ tr, l.probesAlive i = false
  /-- Nor does one of the monitor. -/
  monitor : (w.runs i).monitor.fired = true → ∃ p, (w.runs i).monitor = .probe p
  /-- So the flag of the monitor is not set. -/
  timedOut : (w.runs i).timedOut = false

/-- The probes of the monitor find nothing, so it never comes to the store. -/
theorem RunMove.calmMonitor {c : RunConfig} {hd : CancelHandle ι} {r r' : Run}
    (h : RunMove env c i hd r l r') (hm : r.monitor.fired = true → ∃ p, r.monitor = .probe p)
    (hdead : ∀ p x, l = .monitor i (.probe x) → r.monitor = .probe p →
      treeAliveStep env r.tree p x ≠ some (.inr true))
    (ht : r.timedOut = false) :
    (r'.monitor.fired = true → ∃ p, r'.monitor = .probe p) ∧ r'.timedOut = false := by
  cases h with
  | main h =>
    cases h with
    | startMonitor =>
      refine ⟨fun hf => ?_, ht⟩
      cases hf
    | @joinWait res | @waitReturned res => cases res <;> exact ⟨hm, ht⟩
    | _ => exact ⟨hm, ht⟩
  | monitor h =>
    cases h with
    | message | disconnected | probeDead | killDone =>
      refine ⟨fun hf => ?_, ht⟩
      cases hf
    | deadline | probeMore => exact ⟨fun _ => ⟨_, rfl⟩, ht⟩
    | probeAlive pc h => exact absurd h (hdead _ _ rfl pc)
    | store pc | killMore pc =>
      obtain ⟨p, hp⟩ := hm (by rw [pc]; rfl)
      rw [hp] at pc
      cases pc
  | wait | drain | proc | cancelKill | other => exact ⟨hm, ht⟩

/-- **No trigger has an effect**, if each comes after the end of the tree and no probe
meets a process that nobody has reaped. -/
theorem calm_of_reaches (h : Reaches env cfg tr w) (hu : env.platform = .unix)
    (hlate : Lts.Along (step env cfg) (fun w l => l.triggers i = true →
      (w.runs i).tree.terminated = true) (World.init ι env) tr)
    (hreaped : Lts.Along (step env cfg) (fun w l => l.probes i = true →
      (w.runs i).tree.unreaped = false) (World.init ι env) tr) :
    Calm i tr w := by
  refine Lts.exec_invariant_along (P := fun tr w => Calm i tr w)
    (C := fun w l => (l.triggers i = true → (w.runs i).tree.terminated = true) ∧
      (l.probes i = true → (w.runs i).tree.unreaped = false)) ?_ ?_ h (hlate.and hreaped)
  · refine ⟨fun h => ?_, fun h => ?_, fun l h => ?_, fun h => ?_, rfl⟩ <;> cases h
  · rintro tr w l w' hw hcalm ⟨hlate, hreaped⟩ hstep
    have hunix := onUnix_of_reaches hw hu i
    have hmove := runMove_of_step hstep i
    have hdead : (w.runs i).tree.terminated = true → (w.runs i).tree.dead = true := fun ht => by
      simp only [Tree.terminated, Bool.and_eq_true] at ht
      exact ht.1
    obtain ⟨hmonitor, htimedOut⟩ := hmove.calmMonitor hcalm.monitor (fun p x hl hp => by
      refine treeAliveStep_of_reaped (hdead (hcalm.deadline (by rw [hp]; rfl))) (hreaped ?_)
        (hunix.monitor p hp)
      rw [hl]
      simp [Label.probes]) hcalm.timedOut
    refine ⟨fun hc => ?_, fun hf => ?_, fun l' hl' => ?_, hmonitor, htimedOut⟩
    · refine terminated_step hw hu hstep ?_
      rcases (handleMove_of_step hstep).cancelled.mp hc with hc | ⟨k, rfl⟩
      · exact hcalm.cancelled hc
      · exact hlate rfl
    · refine terminated_step hw hu hstep ?_
      rcases hmove.fired hf with hf | rfl
      · exact hcalm.deadline hf
      · exact hlate (by simp [Label.triggers])
    · rcases List.mem_append.mp hl' with hl' | hl'
      · exact hcalm.alive l' hl'
      · obtain rfl := List.mem_singleton.mp hl'
        by_contra hne
        rw [Bool.not_eq_false] at hne
        obtain ⟨p, x, halive, hpc⟩ := probe_of_probesAlive hstep hne
        have hprobes : l'.cancelProbes i = true ∧ l'.probes i = true := by
          unfold Label.probesAlive at hne
          split at hne
          · simpa [Label.cancelProbes, Label.probes] using (of_decide_eq_true hne).1
          · simpa [Label.cancelProbes, Label.probes] using (of_decide_eq_true hne).1
          · cases hne
        have ht := hcalm.cancelled (cancelled_of_cancelProbes hw hstep hprobes.1)
        refine treeAliveStep_of_reaped (hdead ht) (hreaped hprobes.2) ?_ halive
        rcases hpc with hpc | ⟨k, hpc⟩
        · exact hunix.main p hpc
        · exact hunix.callers k p hpc

/-! ### The way out -/

/-- How control has left `run_impl`. -/
def MainPc.outcome? : MainPc → Option Outcome
  | .leave o | .guardKill _ o | .guardReap o | .finished o => some o
  | _ => none

omit [DecidableEq ι] in
/-- Control leaves with a verdict, after a mishap, or with `spawn`. -/
theorem MainMove.outcome {c : RunConfig} {hd hd' : CancelHandle ι} {r r' : Run} {a : MainAct}
    (h : MainMove env c i hd r a hd' r') (hl : Lifecycle c r) {o : Outcome}
    (hr : r'.main.outcome? = some o) :
    r.main.outcome? = some o ∨ (∃ res, o = .ret res ∧ isVerdict res = true) ∨
      (a.fails || a.breaks) = true ∨ r.waiter.Failed ∨ (∃ e, r.main = .joinWait (.error e)) ∨
      ∃ s, r.main = .spawn s := by
  have hevents := hl.events
  cases h with
  | spawnFailed pc => exact .inr (.inr (.inr (.inr (.inr ⟨_, pc⟩))))
  | startedRefused pc he =>
    rw [pc] at hevents
    simp [StateMachine.transition, hevents.2] at he
  | exitedRefused pc he =>
    rw [pc] at hevents
    simp [StateMachine.transition, hevents.1.1] at he
  | startedPanics | exitedPanics | startMonitorFails | startWaitFails | chunkPanics =>
    exact .inr (.inr (.inl rfl))
  | recvWaitLost _ _ panicked | waitPanicked _ panicked =>
    exact .inr (.inr (.inr (.inl (.inl (by rw [panicked]; rfl)))))
  | @joinWait res pc =>
    cases res with
    | ok code =>
      simp only [Run.afterWait] at hr
      split at hr <;> cases hr
    | error e => exact .inr (.inr (.inr (.inr (.inl ⟨e, pc⟩))))
  | @waitReturned res pc returned =>
    cases res with
    | ok code =>
      simp only [Run.afterWait] at hr
      split at hr <;> cases hr
    | error e => exact .inr (.inr (.inr (.inl (.inl (by rw [returned]; rfl)))))
  | exitedReturns =>
    cases hr
    exact .inr (.inl ⟨_, rfl, isVerdict_runResult _ _⟩)
  | dropLocals pc =>
    refine .inl ?_
    rw [pc]
    simp only at hr
    split at hr <;> exact hr
  | guardMore pc | guardDone pc | guardReap pc =>
    rw [pc]
    exact .inl hr
  | startedReturns | loadCancelled | loadFired =>
    simp only at hr
    split at hr <;> cases hr
  | startMonitor | noMonitor =>
    simp only [RunConfig.afterMonitor] at hr
    split at hr <;> cases hr
  | _ => cases hr

omit [DecidableEq ι] in
/-- On Unix, control leaves with `spawn` only when its one call fails. -/
theorem MainMove.breaks_of_spawn {c : RunConfig} {hd hd' : CancelHandle ι} {r r' : Run}
    {a : MainAct} (hu : env.platform = .unix) (h : MainMove env c i hd r a hd' r')
    (hs : UnixSpawn r) {s : SpawnPc} (hm : r.main = .spawn s) {o : Outcome}
    (hr : r'.main.outcome? = some o) : a.breaks = true := by
  obtain ⟨rfl, -⟩ := hs s hm
  cases h with
  | spawnMore | spawnOk => cases hr
  | @spawnFailed s b t e pc h =>
    rw [hm] at pc
    cases pc
    cases b with
    | command x => cases x <;> simp_all [spawnStep, MainAct.breaks]
    | _ => simp [spawnStep] at h
  | _ pc => rw [hm] at pc; cases pc

/-- Without a mishap, control leaves `run_impl` with a verdict. -/
theorem isVerdict_of_no_mishap (h : Reaches env cfg tr w) (hu : env.platform = .unix)
    (hsmooth : ∀ l ∈ tr, l.mishap i = false) {o : Outcome}
    (ho : (w.runs i).main.outcome? = some o) : ∃ res, o = .ret res ∧ isVerdict res = true := by
  refine Lts.exec_invariant (P := fun tr w => (∀ l ∈ tr, l.mishap i = false) →
    (w.runs i).main.outcome? = some o → ∃ res, o = .ret res ∧ isVerdict res = true)
    ?_ ?_ h hsmooth ho
  · intro _ h
    cases h
  · intro tr w l w' hw ih hstep hsmooth ho
    have hold : ∀ l ∈ tr, l.mishap i = false := fun l hl => hsmooth l (List.mem_append_left _ hl)
    have hnew : l.mishap i = false := hsmooth l (by simp)
    have hnofail : tr.any (Label.fails i) ≠ true := fun hany => by
      obtain ⟨l, hl, hf⟩ := List.any_eq_true.mp hany
      have hm := hold l hl
      cases l <;> simp_all [Label.fails, Label.mishap]
    have hfaults := faults_of_reaches hw i
    have hfailed := hfaults.failed
    have hjoin := hfaults.join
    have hlife := lifecycle_of_reaches hw i
    have hspawn := (onUnix_of_reaches hw hu i).spawn
    have hmove := runMove_of_step hstep i
    generalize w.runs i = r, w'.runs i = r' at hmove ho ih hfailed hjoin hlife hspawn
    cases hmove with
    | main h =>
      rcases h.outcome hlife ho with ho | hv | ha | hf | ⟨e, hj⟩ | ⟨s, hs⟩
      · exact ih hold ho
      · exact hv
      · simp [Label.mishap, ha] at hnew
      · exact absurd (hfailed hf) hnofail
      · exact absurd (hjoin e hj) hnofail
      · simp [Label.mishap, h.breaks_of_spawn hu hspawn hs ho] at hnew
    | monitor h => exact ih hold (h.main_eq ▸ ho)
    | wait | drain | proc | cancelKill | other => exact ih hold ho

omit [DecidableEq ι] in
/-- The one mishap after the second store to the slot is a panic at `Exited`. -/
theorem MainEdge.after_clear {c : RunConfig} {m m' : MainPc} {a : MainAct}
    (h : MainEdge env c m a m') (hm : m.afterClear = true)
    (ha : (a.fails || a.breaks) = true) : a = .exitedPanics := by
  cases h with
  | exitedPanics => rfl
  | stopMonitor | loadTimedOut | loadKillFired | exited | exitedRefused | exitedReturns | dropArmed
  | dropDisarmed | guardMore | guardDone | guardReap => cases ha
  | _ => cases hm

omit [DecidableEq ι] in
/-- Nothing changes how control has left. -/
theorem MainEdge.outcome {c : RunConfig} {m m' : MainPc} {a : MainAct} (h : MainEdge env c m a m')
    {o : Outcome} (ho : m.outcome? = some o) : m'.outcome? = some o := by
  cases h with
  | dropArmed | dropDisarmed | guardMore | guardDone | guardReap => exact ho
  | _ => cases ho

omit [DecidableEq ι] in
theorem MainEdge.of_exitedPanics {c : RunConfig} {m m' : MainPc}
    (h : MainEdge env c m .exitedPanics m') : m' = .leave .unwound := by
  cases h
  rfl

/-- After the second store to the slot, control leaves with a verdict, unless the callback
panics at `Exited`. -/
theorem isVerdict_of_clear (h : Reaches env cfg tr w) (hclear : .main i .clear ∈ tr)
    (hcalm : .main i .exitedPanics ∉ tr) {o : Outcome}
    (ho : (w.runs i).main.outcome? = some o) : ∃ res, o = .ret res ∧ isVerdict res = true := by
  refine Lts.exec_invariant (P := fun tr w => .main i .clear ∈ tr → .main i .exitedPanics ∉ tr →
    (w.runs i).main.outcome? = some o → ∃ res, o = .ret res ∧ isVerdict res = true)
    ?_ ?_ h hclear hcalm ho
  · intro h
    cases h
  · intro tr w l w' hw ih hstep hclear hcalm ho
    rw [List.mem_append, List.mem_singleton] at hclear
    rw [List.mem_append, List.mem_singleton, not_or] at hcalm
    rcases mainMove_or_stays hstep i with ⟨a, rfl, h⟩ | ⟨hne, hm⟩
    · have hclear : .main i .clear ∈ tr := hclear.resolve_right fun hl => by
        cases hl
        obtain ⟨code, -, hm⟩ := h.edge.of_clear
        rw [hm] at ho
        cases ho
      have hfaults := faults_of_reaches hw i
      have hafter := (progress_of_reaches hw i).cleared hclear
      have hnofail : tr.any (Label.fails i) ≠ true := fun hf => (hfaults.between hf).1 hclear
      rcases h.outcome (lifecycle_of_reaches hw i) ho with ho | hv | ha | hf | ⟨e, hj⟩ | ⟨s, hs⟩
      · exact ih hclear hcalm.1 ho
      · exact hv
      · rw [h.edge.after_clear hafter ha] at hcalm
        exact absurd rfl hcalm.2
      · exact absurd (hfaults.failed hf) hnofail
      · exact absurd (hfaults.join e hj) hnofail
      · rw [hs] at hafter
        cases hafter
    · exact ih (hclear.resolve_right (hne _).symm) hcalm.1 (hm ▸ ho)

/-- A panic at `Exited` goes on. -/
theorem unwound_of_exitedPanics (h : Reaches env cfg tr w)
    (hp : .main i .exitedPanics ∈ tr) : (w.runs i).main.outcome? = some .unwound := by
  refine Lts.exec_invariant (P := fun tr w => .main i .exitedPanics ∈ tr →
    (w.runs i).main.outcome? = some .unwound) ?_ ?_ h hp
  · intro h
    cases h
  · intro tr w l w' _ ih hstep hp
    rw [List.mem_append, List.mem_singleton] at hp
    rcases mainMove_or_stays hstep i with ⟨a, rfl, h⟩ | ⟨hne, hm⟩
    · rcases hp with hp | hp
      · exact h.edge.outcome (ih hp)
      · cases hp
        rw [h.edge.of_exitedPanics]
        rfl
    · rw [hm]
      exact ih (hp.resolve_right (hne _).symm)

/-- **A trigger after the end of the tree changes nothing**, if no probe meets a process
that nobody has reaped.  On Unix, in every run on a handle of its own in which the first
call of `cancel()` and the deadline come after every process of the tree has terminated,
in which nothing else goes wrong, and in which each probe of `tree_alive` is made when no
terminated process is left to be reaped: when the run thread has left, it has returned
`Ok`, and the last event was `Exited` with the natural end and the exit code of the
root. -/
theorem late_trigger_changes_nothing (h : Reaches env cfg tr w) (hu : env.platform = .unix)
    (hs : SoleRun cfg i)
    (hlate : Lts.Along (step env cfg) (fun w l => l.triggers i = true →
      (w.runs i).tree.terminated = true) (World.init ι env) tr)
    (hsmooth : ∀ l ∈ tr, l.mishap i = false)
    (hreaped : Lts.Along (step env cfg) (fun w l => l.probes i = true →
      (w.runs i).tree.unreaped = false) (World.init ι env) tr)
    {o : Outcome} (hfin : (w.runs i).main = .finished o) :
    o = .ret (.ok ()) ∧ ∃ pid chunks status, ChunksOnly (cfg i) chunks ∧
      (w.runs i).tree.root = .reaped status ∧
      (w.runs i).events =
        .started pid :: (chunks ++ [.exited (status.getD (-1)) .naturalExit]) := by
  have hcalm := calm_of_reaches h hu hlate hreaped
  obtain ⟨res, rfl, hverdict⟩ := isVerdict_of_no_mishap h hu hsmooth (by rw [hfin]; rfl)
  have hl := loaded_of_reaches h i
  rw [hfin] at hl
  obtain ⟨t, cn, rfl, ht, hcn⟩ := hl hverdict
  -- neither flag was ever set, so neither load returned `true`
  obtain rfl : t = false := by
    rw [← Bool.not_eq_true]
    rintro rfl
    obtain ⟨b, hstore⟩ := (loadTimedOut_iff h).mp ((ht true).mpr rfl)
    have hset := (timedOut_iff (i := i) h).mpr (hstore.subset (by simp))
    rw [hcalm.timedOut] at hset
    cases hset
  have hfires : tr.any (Label.fires i) ≠ true := fun hf => by
    obtain ⟨l, hl, ha⟩ := List.any_eq_true.mp ((triggered_of_reaches h i).alive.mpr (.inr hf))
    rw [hcalm.alive l hl] at ha
    cases ha
  obtain ⟨k, hk⟩ := hasShape_of_returned h hfin
  obtain rfl : cn = false := by
    rw [← Bool.not_eq_true]
    rintro rfl
    obtain rfl := hk.eq_cancelled
    have hfired := loadKillFired_eq h hk.1 hs hcn
    exact hfires ((hs.killFired_iff h).mp hfired.symm)
  obtain rfl := hk.eq_natural
  obtain ⟨pid, chunks, status, hchunks, hroot, hevents, -⟩ := hk
  exact ⟨rfl, pid, chunks, status, hchunks, hroot, hevents⟩

end Runs

/-- The root has exited and been reaped when `cancel()` is called. -/
def lateCancel : List (Label Unit) :=
  beginRun () 7 ++
  [.main () .callWait, .wait () (.startOut true), .wait () (.startErr true),
    .proc () (.rootExit (some 3)), .wait () (.childWait (.ok ())),
    .cancel (.thread 0) (.swap false), .cancel (.thread 0) .lock,
    .cancel (.thread 0) (.probe () .absent), .cancel (.thread 0) (.probe () .absent),
    .cancel (.thread 0) .unlock, .wait () (.killTree .absent), .drain () .stdout (.read .eof),
    .drain () .stderr (.read .eof), .wait () .joinOut, .wait () .joinErr, .main () .waitReturned] ++
  endRun () false false

/-- The natural end is reported. -/
theorem lateCancel_changes_nothing :
    ∃ w, Reaches Env.posix (fun _ => ⟨some 10, false, true⟩) lateCancel w ∧
      (w.runs ()).main = .finished (.ret (.ok ())) ∧
      ∃ pid chunks status, ChunksOnly ⟨some 10, false, true⟩ chunks ∧
        (w.runs ()).tree.root = .reaped status ∧
        (w.runs ()).events =
          .started pid :: (chunks ++ [.exited (status.getD (-1)) .naturalExit]) := by
  obtain ⟨w, hw, hfin⟩ : ∃ w, Reaches Env.posix (fun _ => ⟨some 10, false, true⟩) lateCancel w ∧
      (w.runs ()).main = .finished (.ret (.ok ())) := Lts.exists_exec_of_any (by decide +kernel)
  obtain ⟨-, hnatural⟩ := late_trigger_changes_nothing hw rfl (fun j hj => absurd rfl hj)
    (by decide +kernel) (by decide) (by decide +kernel) hfin
  exact ⟨w, hw, hfin, hnatural⟩

/-- The root exits while the callback for `Started` runs, and `cancel()` is called before
the callback returns: the wiring block then probes a zombie. -/
def zombieProbe : List (Label Unit) :=
  [.main () (.spawn (.command (.ok 7))), .main () .started, .proc () (.rootExit (some 0)),
    .cancel (.thread 0) (.swap false), .cancel (.thread 0) .lock, .cancel (.thread 0) .unlock,
    .main () .startedReturns, .main () .wire, .main () (.loadCancelled true),
    .main () (.loadFired false), .main () (.probe .present), .main () .fire,
    .main () (.kill (.term .present)), .main () (.kill (.probe .present)),
    .main () (.kill (.clock true)), .main () (.kill (.kill .present)),
    .main () (.startMonitor true), .main () .callWait, .wait () (.startOut true),
    .wait () (.startErr true), .wait () (.childWait (.ok ())), .wait () (.killTree .absent),
    .drain () .stdout (.read .eof), .drain () .stderr (.read .eof), .wait () .joinOut,
    .wait () .joinErr, .main () .waitReturned] ++
  endRun () false true

/-- A root that exited with code 0 before anybody called `cancel()` is reported as
cancelled. -/
theorem zombieProbe_reports_cancellation :
    Lts.Along (step Env.posix (fun _ => ⟨none, false, true⟩))
      (fun w l => l.triggers () = true → (w.runs ()).tree.terminated = true)
      (World.init Unit Env.posix) zombieProbe ∧
    (∀ l ∈ zombieProbe, l.mishap () = false) ∧
    ∃ w, Reaches Env.posix (fun _ => ⟨none, false, true⟩) zombieProbe w ∧
      (w.runs ()).tree.root = .reaped (some 0) ∧
      (w.runs ()).events = [.started 7, .exited (-1) .cancelRequested] ∧
      (w.runs ()).main = .finished (.ret (.error .cancelled)) :=
  ⟨by decide +kernel, by decide, Lts.exists_exec_of_any (by decide +kernel)⟩

end AerCore
