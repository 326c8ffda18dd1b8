import AerCore.Cancel

/-!
# Signals after the end of a run

The monitor thread is never joined, and neither is the wait thread when the run
unwinds.  What they may still do to the tree of a run that has been left is
limited: the monitor finishes the probe-then-kill sequence of a deadline that
fired before the end, and a wait thread that was abandoned by an unwind makes its
closing kill.  A call of `cancel()` cannot reach the tree once the slot is cleared.

## Main definitions

* `Label.signals` — a step that sends a signal other than 0, or terminates the job.
* `WaitPc.closed`, `MonitorPc.fired` — how far `wait` and the monitor are from a kill.
* `Left` — what is left of a run was left of it when its run thread had gone.

## Main results

* `signals_after_the_end` — **which signals can still be sent after the end of a run**.
* `lateTimeout_signals_after_its_end` — and the monitor does send one.
-/

namespace AerCore

variable {ι : Type*}

/-! ### Signals -/

/-- The step sends a signal other than 0 to the tree of run `i`, or terminates its job. -/
def Label.signals [DecidableEq ι] (i : ι) : Label ι → Bool
  | .main j (.kill a) | .main j (.guardKill a) | .monitor j (.kill a) | .cancel _ (.kill j a) =>
      decide (j = i) && a.signals
  | .wait j (.killTree _) => decide (j = i)
  | _ => false

/-- `wait` has not been called, or it is past its closing kill for good. -/
def WaitPc.closed : WaitPc → Bool
  | .idle | .returned _ | .sent | .ended | .panicked => true
  | .startOut | .startErr | .childWait | .killTree _ | .joinOut _ | .joinErr _ => false

/-- The deadline has fired and the monitor is on its way to the kill. -/
def MonitorPc.fired : MonitorPc → Bool
  | .probe _ | .store | .kill _ => true
  | .idle | .recv | .done => false

/-! ### What is left of a run -/

/-- What the call of `wait` has still to do, by the place of the run thread: once the
run is on its way out, its wait thread is done, unless an unwind abandoned it. -/
def WaitDone (c : RunConfig) (x : Waiter) : MainPc → Prop
  | .inExited _ _ => x.pc.closed = true
  | .leave o | .guardKill _ o | .guardReap o | .finished o =>
      (o = .unwound ∧ c.captureOutput = true) ∨ x.pc.closed = true
  | _ => True

/-- The monitor of a run that has been left has no deadline ahead of it. -/
def MonitorDone (r : Run) : MainPc → Prop
  | .guardKill _ _ | .guardReap _ => r.stopTx = false
  | .finished _ => r.stopTx = false ∨ r.monitor = .idle
  | _ => True

section Moves

variable {env : Env} {c : RunConfig} {i : ι} {hd hd' : CancelHandle ι} {r r' : Run}
  {l : Label ι}

theorem WaitPc.closed_of_answered {p : WaitPc} (h : p.answered = true) : p.closed = true := by
  cases p <;> first | rfl | cases h

theorem WaitMove.closed {capture : Bool} {t t' : Tree} {o o' : Output} {w w' : Waiter}
    {a : WaitAct} (h : WaitMove env capture t o w a t' o' w') (hw : w.pc.closed = true) :
    w'.pc.closed = true := by
  cases h with
  | send | exit => rfl
  | _ pc => rw [pc] at hw; cases hw

theorem WaitDone.mono {x x' : Waiter} {m : MainPc}
    (hx : x.pc.closed = true → x'.pc.closed = true) (h : WaitDone c x m) : WaitDone c x' m := by
  cases m with
  | inExited => exact hx h
  | leave | guardKill | guardReap | finished => exact h.imp id hx
  | _ => trivial

/-- The run thread leaves only when `wait` is done, or by an unwind out of the pump loop. -/
theorem MainMove.waitDone {a : MainAct} (h : MainMove env c i hd r a hd' r')
    (hu : Unstarted env r) (hl : Lifecycle c r) (ha : Answered env r)
    (hd : WaitDone c r.waiter r.main) : WaitDone c r'.waiter r'.main := by
  -- before `wait` is called there is nothing to be done
  have hbefore : r.main.beforeWait = true → r.waiter.pc.closed = true := fun hb => by
    rw [ha.before hb]
    rfl
  have hanswered : ∀ res, r.main.answer? = some res → r.waiter.pc.closed = true := fun res hres =>
    WaitPc.closed_of_answered (ha.main res hres).1
  cases h with
  | spawnFailed pc =>
    rw [hu _ pc]
    exact .inr rfl
  | startedRefused pc | startedPanics pc | startMonitorFails pc | startWaitFails pc =>
    exact .inr (hbefore (by rw [pc]; rfl))
  | chunkPanics pc => exact .inl ⟨rfl, hl.path true (by rw [pc]; rfl)⟩
  | recvWaitLost _ _ panicked | waitPanicked _ panicked =>
    refine .inr ?_
    rw [panicked]
    rfl
  | @joinWait res pc ended =>
    cases res with
    | ok code => simp only [Run.afterWait]; split <;> trivial
    | error e => exact .inr (hanswered _ (by rw [pc]; rfl))
  | @waitReturned res pc returned =>
    cases res with
    | ok code => simp only [Run.afterWait]; split <;> trivial
    | error e =>
      refine .inr ?_
      change r.waiter.pc.closed = true
      rw [returned]
      rfl
  | exited pc => exact hanswered _ (by rw [pc]; rfl)
  | exitedRefused pc => exact .inr (hanswered _ (by rw [pc]; rfl))
  | exitedReturns pc | exitedPanics pc =>
    rw [pc] at hd
    exact .inr hd
  | dropLocals pc =>
    rw [pc] at hd
    simp only
    split <;> exact hd
  | guardMore pc | guardDone pc | guardReap pc =>
    rw [pc] at hd
    exact hd
  | startedReturns | loadCancelled | loadFired => simp only; split <;> trivial
  | startMonitor | noMonitor => simp only [RunConfig.afterMonitor]; split <;> trivial
  | _ => trivial

theorem waitDone_move [DecidableEq ι] (h : RunMove env c i hd r l r') (hu : Unstarted env r)
    (hl : Lifecycle c r) (ha : Answered env r) (hd : WaitDone c r.waiter r.main) :
    WaitDone c r'.waiter r'.main := by
  cases h with
  | main h => exact h.waitDone hu hl ha hd
  | monitor h =>
    rw [h.main_eq]
    exact hd.mono (by cases h <;> exact id)
  | wait h => exact hd.mono h.closed
  | drain | proc | cancelKill | other => exact hd

/-- The sender of the monitor's channel is dropped on the way out. -/
theorem monitorDone_move [DecidableEq ι] (h : RunMove env c i hd r l r') (hu : Unstarted env r)
    (hd : MonitorDone r r.main) : MonitorDone r' r'.main := by
  cases h with
  | main h =>
    cases h with
    | spawnFailed pc =>
      refine .inr ?_
      rw [hu _ pc]
      rfl
    | dropLocals pc =>
      simp only
      split
      · rfl
      · exact .inl rfl
    | guardMore pc | guardDone pc =>
      rw [pc] at hd
      exact hd
    | guardReap pc =>
      rw [pc] at hd
      exact .inl hd
    | startedReturns | loadCancelled | loadFired => simp only; split <;> trivial
    | startMonitor | noMonitor => simp only [RunConfig.afterMonitor]; split <;> trivial
    | @joinWait res | @waitReturned res =>
      cases res with
      | ok code => simp only [Run.afterWait]; split <;> trivial
      | error e => trivial
    | _ => trivial
  | monitor h =>
    rw [h.main_eq]
    have hne := h.monitor_ne_idle
    have htx : r'.stopTx = r.stopTx := by cases h <;> rfl
    generalize r.main = m at hd ⊢
    cases m with
    | guardKill | guardReap => exact htx.trans hd
    | finished => exact .inl (htx.trans (hd.resolve_right hne))
    | _ => trivial
  | wait | drain | proc | cancelKill =>
    generalize hm : r.main = m at hd ⊢
    cases m <;> exact hd
  | other => exact hd

/-- The monitor passes its deadline once. -/
theorem MonitorMove.fired {a : MonitorAct} (h : MonitorMove env r a r')
    (hf : r'.monitor.fired = true) : r.monitor.fired = true ∨ a = .deadline := by
  cases h with
  | deadline => exact .inr rfl
  | message | disconnected | probeDead | killDone => cases hf
  | probeMore pc | probeAlive pc | store pc | killMore pc => exact .inl (by rw [pc]; rfl)

/-- Nobody but the monitor makes it pass its deadline. -/
theorem RunMove.fired [DecidableEq ι] (h : RunMove env c i hd r l r')
    (hf : r'.monitor.fired = true) : r.monitor.fired = true ∨ l = .monitor i .deadline := by
  cases h with
  | main h =>
    cases h with
    | startMonitor => cases hf
    | @joinWait res | @waitReturned res => cases res <;> exact .inl hf
    | _ => exact .inl hf
  | monitor h => exact (h.fired hf).imp id (congrArg _)
  | wait | drain | proc | cancelKill | other => exact .inl hf

end Moves

/-! ### After the end -/

/-- What is left of run `i` in `w'` was left of it in `w`: its run thread has gone, and no
thread has come closer to a signal than it was. -/
structure Left (w : World ι) (i : ι) (o : Outcome) (w' : World ι) : Prop where
  /-- The run thread has left. -/
  main : (w'.runs i).main = .finished o
  /-- Nobody stores the kill handle in the slot again. -/
  slot : w'.handle.kill = some i → w.handle.kill = some i
  /-- The monitor does not pass its deadline any more. -/
  monitor : (w'.runs i).monitor.fired = true → (w.runs i).monitor.fired = true
  /-- `wait` is not called again. -/
  wait : (w'.runs i).waiter.pc.closed = false → (w.runs i).waiter.pc.closed = false

theorem Left.refl {w : World ι} {i : ι} {o : Outcome} (h : (w.runs i).main = .finished o) :
    Left w i o w :=
  ⟨h, id, id, id⟩

theorem Left.trans {w₁ w₂ w₃ : World ι} {i : ι} {o : Outcome} (h : Left w₁ i o w₂)
    (h' : Left w₂ i o w₃) : Left w₁ i o w₃ :=
  ⟨h'.main, h.slot ∘ h'.slot, h.monitor ∘ h'.monitor, h.wait ∘ h'.wait⟩

section Runs

variable [DecidableEq ι] {env : Env} {cfg : ι → RunConfig} {tr : List (Label ι)}
  {w w' : World ι} {i : ι} {o : Outcome} {l : Label ι}

theorem waitDone_of_reaches (h : Reaches env cfg tr w) (i : ι) :
    WaitDone (cfg i) (w.runs i).waiter (w.runs i).main := by
  refine Lts.exec_invariant
    (P := fun _ w => WaitDone (cfg i) (w.runs i).waiter (w.runs i).main) ?_ ?_ h
  · trivial
  · intro _ w l w' hw hd hstep
    exact waitDone_move (runMove_of_step hstep i) (unstarted_of_reaches hw i)
      (lifecycle_of_reaches hw i) (answered_of_reaches hw i) hd

theorem monitorDone_of_reaches (h : Reaches env cfg tr w) (i : ι) :
    MonitorDone (w.runs i) (w.runs i).main := by
  refine Lts.exec_invariant (P := fun _ w => MonitorDone (w.runs i) (w.runs i).main) ?_ ?_ h
  · trivial
  · intro _ w l w' hw hd hstep
    exact monitorDone_move (runMove_of_step hstep i) (unstarted_of_reaches hw i) hd

/-- The monitor is on its way to the kill only after its deadline. -/
theorem deadline_of_fired (h : Reaches env cfg tr w) (hf : (w.runs i).monitor.fired = true) :
    .monitor i .deadline ∈ tr := by
  refine Lts.exec_invariant (P := fun tr w => (w.runs i).monitor.fired = true →
    .monitor i .deadline ∈ tr) ?_ ?_ h hf
  · intro h
    cases h
  · intro tr w l w' _ ih hstep hf
    rcases (runMove_of_step hstep i).fired hf with hf | rfl
    · exact List.mem_append_left _ (ih hf)
    · simp

/-- A step after the end brings no thread closer to a signal. -/
theorem Left.step (h : Reaches env cfg tr w) (hfin : (w.runs i).main = .finished o)
    (hstep : step env cfg w l = some w') : Left w i o w' where
  main := by
    have hmove := runMove_of_step hstep i
    generalize w.runs i = r, w'.runs i = r' at hmove hfin ⊢
    cases hmove with
    | main h => exact absurd hfin (h.edge.not_finished o)
    | monitor h => exact h.main_eq.trans hfin
    | wait | drain | proc | cancelKill | other => exact hfin
  slot := fun hk => by
    cases handleMove_of_step hstep with
    | @main j _ _ _ h =>
      rw [setRun_handle] at hk
      rcases h.handle with rfl | ⟨-, -, rfl⟩ | ⟨pc, -, -, rfl⟩ | ⟨-, -, -, rfl⟩
      · exact hk
      · exact hk
      · cases hk
        rw [hfin] at pc
        cases pc
      · cases hk
    | cancel h => cases h <;> exact hk
    | inner _ hh => exact hh ▸ hk
  monitor := fun hf => by
    refine ((runMove_of_step hstep i).fired hf).resolve_right ?_
    -- the deadline needs a sender, and the sender was dropped on the way out
    rintro rfl
    have hmove := runMove_of_step hstep i
    have hdone := monitorDone_of_reaches h i
    rw [hfin] at hdone
    generalize w.runs i = r, w'.runs i = r' at hmove hdone
    cases hmove with
    | monitor h =>
      have hidle := h.monitor_ne_idle
      cases h with
      | deadline _ _ tx =>
        rcases hdone with hdropped | hnone
        · rw [tx] at hdropped
          cases hdropped
        · exact hidle hnone
    | other h => simp [Label.touches] at h
  wait := fun hc => by
    have hmove := runMove_of_step hstep i
    generalize w.runs i = r, w'.runs i = r' at hmove hc hfin ⊢
    by_contra hclosed
    rw [Bool.not_eq_false] at hclosed
    cases hmove with
    | main h => exact absurd hfin (h.edge.not_finished o)
    | monitor h =>
      have hwaiter := h.waiter_eq
      rw [hwaiter, hclosed] at hc
      cases hc
    | wait h =>
      change WaitPc.closed _ = false at hc
      rw [h.closed hclosed] at hc
      cases hc
    | drain | proc | cancelKill | other =>
      rw [hclosed] at hc
      cases hc

/-- Who can send a signal to the tree of a run that has been left. -/
theorem signals_of_left (h : Reaches env cfg tr w) (hfin : (w.runs i).main = .finished o)
    (hstep : step env cfg w l = some w') (hsig : l.signals i = true) :
    (∃ a, l = .monitor i (.kill a) ∧ (w.runs i).monitor.fired = true) ∨
      (∃ x, l = .wait i (.killTree x) ∧ (w.runs i).waiter.pc.closed = false) ∨
      ∃ k a, l = .cancel k (.kill i a) ∧ w.handle.kill = some i := by
  have hmove := runMove_of_step hstep i
  generalize hr : w.runs i = r, w'.runs i = r' at hmove hfin ⊢
  cases hmove with
  | main h => exact absurd hfin (h.edge.not_finished o)
  | monitor h =>
    cases h with
    | killMore pc | killDone pc => exact .inl ⟨_, rfl, by rw [pc]; rfl⟩
    | _ => cases hsig
  | wait h =>
    cases h with
    | killTree pc => exact .inr (.inl ⟨_, rfl, by rw [pc]; rfl⟩)
    | _ => cases hsig
  | drain | proc => cases hsig
  | @cancelKill k a =>
    refine .inr (.inr ⟨k, a, rfl, ?_⟩)
    -- the caller found the run in the slot, which is not changed while it holds the mutex
    cases handleMove_of_step hstep with
    | cancel h =>
      cases h with
      | killMore pc | killDone pc => exact (guarded_of_reaches h).slot k i (by rw [pc]; rfl)
    | inner hl => cases hl
  | other hl =>
    cases l with
    | main j a => cases a <;> simp_all [Label.signals, Label.touches]
    | monitor j a => cases a <;> simp_all [Label.signals, Label.touches]
    | wait j a => cases a <;> simp_all [Label.signals, Label.touches]
    | cancel k a => cases a <;> simp_all [Label.signals, Label.touches]
    | drain | proc => cases hsig

theorem Left.run (h : Reaches env cfg tr w) (hfin : (w.runs i).main = .finished o)
    {tr₂ : List (Label ι)} (hrun : Lts.exec (AerCore.step env cfg) w tr₂ = some w') :
    Left w i o w' := by
  refine Lts.exec_invariant (P := fun _ w' => Left w i o w') (.refl hfin) ?_ hrun
  intro tr₂ w₂ l w₃ hw₂ hleft hstep
  have hreach : Reaches env cfg (tr ++ tr₂) w₂ := Lts.exec_append_eq_some.mpr ⟨w, h, hw₂⟩
  exact hleft.trans (.step hreach hleft.main hstep)

/-- **Which signals can still be sent after the end of a run.**  Once the run thread has
left, by a return or by an unwind, a signal other than 0 is sent to its tree only by the
timeout monitor, when its deadline had fired before the end and its probe or kill was
still under way; by the wait thread that an unwind out of the pump loop left behind; or
by a call of `cancel()` that finds the run in a slot it was left in. -/
theorem signals_after_the_end (h : Reaches env cfg tr w) (hfin : (w.runs i).main = .finished o)
    {tr₂ : List (Label ι)} {w₂ : World ι} (hrun : Lts.exec (step env cfg) w tr₂ = some w₂)
    (hl : l ∈ tr₂) (hsig : l.signals i = true) :
    (∃ a, l = .monitor i (.kill a) ∧ (cfg i).timeout.isSome = true ∧
        .monitor i .deadline ∈ tr ∧ (w.runs i).monitor.fired = true) ∨
      (∃ x, l = .wait i (.killTree x) ∧ o = .unwound ∧ (cfg i).captureOutput = true ∧
        (w.runs i).waiter.pc.closed = false) ∨
      ∃ k a, l = .cancel k (.kill i a) ∧ w.handle.kill = some i := by
  obtain ⟨before, after, w₁, w₃, rfl, hbefore, hstep, -⟩ := Lts.exec_of_mem hrun hl
  have hreach : Reaches env cfg (tr ++ before) w₁ := Lts.exec_append_eq_some.mpr ⟨w, h, hbefore⟩
  have hleft : Left w i o w₁ := .run h hfin hbefore
  rcases signals_of_left hreach hleft.main hstep hsig with ⟨a, rfl, hf⟩ | ⟨x, rfl, hc⟩ |
    ⟨k, a, rfl, hk⟩
  · have hfired := hleft.monitor hf
    refine .inl ⟨a, rfl, (lifecycle_of_reaches h i).monitor ?_, deadline_of_fired h hfired, hfired⟩
    intro hidle
    rw [hidle] at hfired
    cases hfired
  · have hopen := hleft.wait hc
    have hdone := waitDone_of_reaches h i
    rw [hfin] at hdone
    obtain ⟨ho, hcap⟩ := hdone.resolve_right (by rw [hopen]; exact Bool.false_ne_true)
    exact .inr (.inl ⟨x, rfl, ho, hcap, hopen⟩)
  · exact .inr (.inr ⟨k, a, rfl, hleft.slot hk⟩)

end Runs

/-- The callback panics at a chunk of a root that is still at work. -/
def abandonedWait : List (Label Unit) :=
  beginRun () 7 ++
  [.main () .openChannel, .main () .dropTx, .main () (.startWait true),
    .wait () (.startOut true), .wait () (.startErr true),
    .proc () (.write .root .stdout [1]), .drain () .stdout (.read (.bytes [1])),
    .drain () .stdout .send, .main () .recv, .main () .chunkPanics, .main () .dropLocals,
    .main () (.guardKill (.term .present)), .main () (.guardKill (.probe .present)),
    .main () (.guardKill (.clock true)), .main () (.guardKill (.kill .present)),
    .main () (.guardReap .returned)]

/-- Its wait thread is left behind and still makes the closing kill, of a group that is
gone. -/
theorem abandonedWait_signals_after_the_end :
    ∃ w w₂, Reaches Env.posix (fun _ => ⟨none, true, true⟩) abandonedWait w ∧
      (w.runs ()).main = .finished .unwound ∧ (w.runs ()).tree.groupExists = false ∧
      Lts.exec (step Env.posix (fun _ => ⟨none, true, true⟩)) w
        [.wait () (.childWait (.error (.os 10))), .wait () (.killTree .absent)] = some w₂ ∧
      (w.runs ()).waiter.pc.closed = false := by
  obtain ⟨w, hw, hfin, hgone, w₂, hrun⟩ :
      ∃ w, Reaches Env.posix (fun _ => ⟨none, true, true⟩) abandonedWait w ∧
        (w.runs ()).main = .finished .unwound ∧ (w.runs ()).tree.groupExists = false ∧
        ∃ w₂, Lts.exec (step Env.posix (fun _ => ⟨none, true, true⟩)) w
          [.wait () (.childWait (.error (.os 10))), .wait () (.killTree .absent)] = some w₂ := by
    simp only [← Option.isSome_iff_exists]
    exact Lts.exists_exec_of_any (by decide +kernel)
  refine ⟨w, w₂, hw, hfin, hgone, hrun, ?_⟩
  rcases signals_after_the_end hw hfin hrun (l := .wait () (.killTree .absent)) (by simp) rfl with
    ⟨a, ha, -⟩ | ⟨x, -, -, -, hopen⟩ | ⟨k, a, ha, -⟩
  · cases ha
  · exact hopen
  · cases ha

/-- A deadline fires and finds the root at work; the root exits by itself, and the run
returns before the monitor goes on. -/
def lateTimeout : List (Label Unit) :=
  beginRun () 7 ++ [.monitor () .deadline, .monitor () (.probe .present)] ++ waitNatural () 0 ++
  endRun () false false

/-- The monitor then sends `SIGTERM` to the group of a run that has returned and whose
group is gone. -/
theorem lateTimeout_signals_after_its_end :
    ∃ w, Reaches Env.posix (fun _ => ⟨some 10, false, true⟩) lateTimeout w ∧
      (w.runs ()).main = .finished (.ret (.ok ())) ∧ (w.runs ()).tree.groupExists = false ∧
      ∃ w₂, Lts.exec (step Env.posix (fun _ => ⟨some 10, false, true⟩)) w
          [.monitor () .store, .monitor () (.kill (.term .absent))] = some w₂ ∧
        Label.signals () (.monitor () (.kill (.term .absent))) = true := by
  simp only [Label.signals, KillAct.signals, decide_true, Bool.and_self, and_true,
    ← Option.isSome_iff_exists]
  exact Lts.exists_exec_of_any (by decide +kernel)

end AerCore
