import AerCore.Erase

/-!
# A run without capture, with capture

From a run without capture one with capture is made: a call of `wait` opens the channel and
starts the wait thread, each piece is delivered as soon as it is read, and the return of `wait`
closes the channel, sends the answer and joins the thread.  The run thread is in the pump loop
all the while, and `InStep` says what holds between these steps.

The pump loop ends only when both drain threads have.  So the return of `wait` can be followed
only if they are done by then, which is what `DoneOnReturn` asks for.

## Main definitions

* `InStep r p` — a captured run that keeps in step with a run without capture.
* `DoneOnReturn i` — when `wait` returns, both drain threads of run `i` have ended.

## Main results

* `backward_step` — each step without capture is made up of steps with it.
* `backward_of_reaches` — **a run without capture is made up into a run with it.**
-/

namespace AerCore

variable {ι : Type*}

/-! ### From no capture to capture -/

/-- The run thread is in the pump loop, or at a place it would come to without capture, too. -/
def MainPc.settled : MainPc → Bool
  | .dropTx | .startWait | .inChunk | .recvWait | .joinWait _ | .callWait | .inWait => false
  | _ => true

theorem MainPc.eq_openChannel {m : MainPc} (hs : m.settled = true) (h : m.plain = .callWait) :
    m = .openChannel := by
  cases m <;> simp_all [MainPc.settled, MainPc.plain]

theorem MainPc.eq_pump {m : MainPc} (hs : m.settled = true) (h : m.plain = .inWait) :
    m = .pump := by
  cases m <;> simp_all [MainPc.settled, MainPc.plain]

/-- A captured run that keeps in step with a run without capture: each chunk is delivered as
soon as it is read, and the answer of `wait` is handed over when the other run takes it. -/
structure InStep (r : Run) (p : WaitPc) : Prop where
  /-- The run thread is between the steps that are there only with capture. -/
  place : r.main.settled = true
  /-- Up to its answer, `wait` is at the same place. -/
  same : r.waiter.pc ≠ .ended → p = r.waiter.pc
  /-- Then the other run has its answer. -/
  ended : r.waiter.pc = .ended → r.main ≠ .pump ∧ ∃ res, p = .returned res
  /-- The answer is not on its way. -/
  sent : r.waiter.pc ≠ .sent
  /-- `wait` has not panicked. -/
  started : r.waiter.pc ≠ .panicked
  /-- The run thread is in the pump loop while `wait` runs. -/
  waiting : r.waiter.pc ≠ .idle → r.waiter.pc ≠ .ended → r.main = .pump
  /-- The channel is empty, and only the drain threads keep it open. -/
  pumping : r.main = .pump → r.output.chunks.queue = [] ∧ r.output.chunks.txRun = false ∧
    r.output.chunks.rx = true ∧ ∀ s, (r.output.drain s).pc = .done → r.output.chunks.tx s = false
  /-- The drain threads read while the run thread is in the pump loop. -/
  reading : ∀ s, (r.output.drain s).pc = .reading → r.main = .pump
  /-- No chunk is on its way. -/
  still : ∀ s bs, (r.output.drain s).pc ≠ .sending bs

section Moves

variable {env : Env} {c : RunConfig} {i : ι} {hd hd' : CancelHandle ι} {r r' : Run} {p : WaitPc}
  {a : MainAct}

theorem inStep_init : InStep (Run.init env) .idle := by
  refine ⟨rfl, fun _ => rfl, by simp [Run.init], by simp [Run.init], by simp [Run.init],
    fun h => absurd rfl h, by simp [Run.init], fun s hs => ?_, fun s bs hs => ?_⟩
  · cases s <;> cases hs
  · cases s <;> cases hs

theorem InStep.frame (h : InStep r p) (hmain : r'.main = r.main) (hwaiter : r'.waiter = r.waiter)
    (houtput : r'.output = r.output) : InStep r' p where
  place := by rw [hmain]; exact h.place
  same := by rw [hwaiter]; exact h.same
  ended := by rw [hwaiter, hmain]; exact h.ended
  sent := by rw [hwaiter]; exact h.sent
  started := by rw [hwaiter]; exact h.started
  waiting := by rw [hwaiter, hmain]; exact h.waiting
  pumping := by rw [hmain, houtput]; exact h.pumping
  reading := by rw [hmain, houtput]; exact h.reading
  still := by rw [houtput]; exact h.still

theorem MainEdge.settled {m m' : MainPc} (h : MainEdge env c m a m') (hc : c.captureOutput = true)
    (ha : a.plumbs = false) : m ≠ .pump ∧ m' ≠ .pump ∧ m'.settled = true := by
  cases h with
  | monitorPlain capture => rw [hc] at capture; cases capture
  | openChannel | dropTx | startWait | startWaitFails | recv | recvClosed | chunkReturns
  | chunkPanics | recvWait | recvWaitLost | joinClear | joinPlain | joinFailed | callWait
  | waitClear | waitPlain | waitFailed | waitPanicked => cases ha
  | _ => exact ⟨by simp, by simp, rfl⟩

/-- A step that is there with capture and without is made outside the pump loop. -/
theorem MainMove.inStep (h : MainMove env c i hd r a hd' r') (hc : c.captureOutput = true)
    (ha : a.plumbs = false) (hr : InStep r p) : InStep r' p := by
  obtain ⟨hm, hm', hplace⟩ := h.edge.settled hc ha
  have hwaiter := h.waiter_eq ha
  have hquiet : r.waiter.pc = .idle ∨ r.waiter.pc = .ended := by
    by_contra hne
    rw [not_or] at hne
    exact hm (hr.waiting hne.1 hne.2)
  constructor
  · exact hplace
  · rw [hwaiter]; exact hr.same
  · rw [hwaiter]; exact fun hpc => ⟨hm', (hr.ended hpc).2⟩
  · rw [hwaiter]; exact hr.sent
  · rw [hwaiter]; exact hr.started
  · rw [hwaiter]
    intro hidle hended
    exact (hquiet.elim hidle hended).elim
  · exact fun hpc => absurd hpc hm'
  · intro s hs
    rw [h.drain_eq s] at hs
    exact absurd (hr.reading s hs) hm
  · intro s bs
    rw [h.drain_eq s]
    exact hr.still s bs

/-- The end of a pipe closes the channel from its side. -/
theorem InStep.endDrain (hr : InStep r p) {s : Stream} {t : Tree}
    (pc : (r.output.drain s).pc = .reading) :
    InStep { r with tree := t, output := r.output.endDrain s } p where
  place := hr.place
  same := hr.same
  ended := hr.ended
  sent := hr.sent
  started := hr.started
  waiting := hr.waiting
  pumping := fun hm => by
    obtain ⟨hq, htx, hrx, hdone⟩ := hr.pumping hm
    refine ⟨by simpa using hq, ?_, by simpa using hrx, fun s' hs' => ?_⟩
    · rw [Output.chunks_endDrain]
      cases s <;> exact htx
    · rw [Output.chunks_endDrain]
      by_cases hss : s' = s
      · rw [hss]
        exact ChunkChan.tx_dropTx_self _ s
      · rw [ChunkChan.tx_dropTx_ne _ hss]
        refine hdone s' ?_
        rw [← hs']
        cases s <;> cases s' <;> first | rfl | exact absurd rfl hss
  reading := fun _ _ => hr.reading s pc
  still := fun s' bs => by
    by_cases hss : s' = s
    · rw [hss]
      simp
    · have := hr.still s' bs
      cases s <;> cases s' <;> first | exact this | exact absurd rfl hss

/-- A chunk that has been delivered leaves the drain thread at its next read. -/
theorem InStep.deliver (hr : InStep r p) {s : Stream} {es : List Event} {t : Tree} {n : ℕ}
    (pc : (r.output.drain s).pc = .reading) :
    InStep { r with events := es, tree := t, output := r.output.setDrain s ⟨.reading, n⟩ } p := by
  have hdrain : ∀ s', ((r.output.setDrain s ⟨.reading, n⟩).drain s').pc =
      (r.output.drain s').pc := fun s' => by
    by_cases hs : s' = s
    · rw [hs, Output.drain_setDrain_self, pc]
    · rw [Output.drain_setDrain_ne _ _ hs]
  refine ⟨hr.place, hr.same, hr.ended, hr.sent, hr.started, hr.waiting, fun hm => ?_, ?_, ?_⟩
  · obtain ⟨hqueue, htx, hrx, hdone⟩ := hr.pumping hm
    simp only [Output.chunks_setDrain, hdrain]
    exact ⟨hqueue, htx, hrx, hdone⟩
  · simp only [hdrain]
    exact hr.reading
  · simp only [hdrain]
    exact hr.still

/-- Past the wait thread, both runs go on from the same answer. -/
theorem inStep_afterWait {res : Except AerError ℤ} (hended : r.waiter.pc = .ended)
    (hdone : ∀ s, (r.output.drain s).pc = .done) : InStep (r.afterWait c res) (.returned res) := by
  obtain ⟨hwaiter, houtput⟩ : (r.afterWait c res).waiter = r.waiter ∧
      (r.afterWait c res).output = r.output := by
    cases res <;> exact ⟨rfl, rfl⟩
  have hplace : (r.afterWait c res).main.settled = true ∧ (r.afterWait c res).main ≠ .pump := by
    cases res with
    | ok code => simp only [Run.afterWait]; split <;> simp [MainPc.settled]
    | error e => simp [Run.afterWait, MainPc.settled]
  constructor
  · exact hplace.1
  · exact fun hne => absurd (hwaiter ▸ hended) hne
  · exact fun _ => ⟨hplace.2, res, rfl⟩
  · simp [hwaiter, hended]
  · simp [hwaiter, hended]
  · exact fun _ hne => absurd (hwaiter ▸ hended) hne
  · exact fun hm => absurd hm hplace.2
  · intro s hs
    rw [houtput, hdone s] at hs
    cases hs
  · intro s bs
    simp [houtput, hdone s]

/-- A step of `wait` up to its answer is made from the pump loop. -/
theorem WaitMove.inStep {b : WaitAct} {t : Tree} {o : Output} {x : Waiter}
    (h : WaitMove env true r.tree r.output r.waiter b t o x) (hsend : b ≠ .send)
    (hexit : b ≠ .exit) (hout : b ≠ .startOut false) (herr : b ≠ .startErr false)
    (hmain : r.main = .pump) (hr : InStep r p) :
    InStep { r with tree := t, output := o, waiter := x } x.pc := by
  obtain ⟨hq, htx, hrx, hdone⟩ := hr.pumping hmain
  have hpc : x.pc ≠ .ended ∧ x.pc ≠ .sent ∧ x.pc ≠ .panicked := by
    cases h with
    | send => exact absurd rfl hsend
    | exit => exact absurd rfl hexit
    | startOutFails => exact absurd rfl hout
    | startErrFails => exact absurd rfl herr
    | childWait | childWaitFails => cases env.platform <;> simp [WaitPc.afterChildWait]
    | _ => simp
  have hdrains : o.chunks = r.output.chunks ∧
      ∀ s, (o.drain s).pc = .reading ∨ (o.drain s).pc = (r.output.drain s).pc := by
    cases h with
    | startOutFails => exact absurd rfl hout
    | startErrFails => exact absurd rfl herr
    | startOut | startErr =>
      refine ⟨rfl, fun s => ?_⟩
      cases s
      all_goals first | exact .inl rfl | exact .inr rfl
    | _ => exact ⟨rfl, fun s => .inr rfl⟩
  obtain ⟨hchunks, hdrains⟩ := hdrains
  refine ⟨hr.place, fun _ => rfl, fun h => absurd h hpc.1, hpc.2.1, hpc.2.2, fun _ _ => hmain,
    fun _ => ⟨hchunks ▸ hq, hchunks ▸ htx, hchunks ▸ hrx, fun s hs => ?_⟩, fun _ _ => hmain,
    fun s bs hs => ?_⟩
  · simp only [hchunks]
    rcases hdrains s with hread | hkeep
    · rw [hread] at hs; cases hs
    · exact hdone s (hkeep ▸ hs)
  · rcases hdrains s with hread | hkeep
    · rw [hread] at hs; cases hs
    · exact hr.still s bs (hkeep ▸ hs)

end Moves

section Runs

variable [DecidableEq ι] {env : Env} {cfg : ι → RunConfig} {i : ι} {p : WaitPc}
  {tr : List (Label ι)} {w w' v : World ι} {l : Label ι}

theorem setRun_setRun (w : World ι) (i : ι) (r r' : Run) :
    (w.setRun i r).setRun i r' = w.setRun i r' := by
  simp [World.setRun]

/-- Outside the steps that are there only with capture, the run keeps in step. -/
theorem inStep_step (hl : l.plumbs i = false) (hwait : ∀ a, l ≠ .wait i a)
    (hsmooth : Smooth i w l) (hbytes : ∀ s bs, l ≠ .drain i s (.read (.bytes bs)))
    (h : step env (capturing cfg i true) w l = some w') (hr : InStep (w.runs i) p) :
    InStep (w'.runs i) p := by
  have hmove := runMove_of_step h i
  have hdrain : ∀ s a, l = .drain i s a → a ≠ .read .interrupted := by
    rintro s a rfl
    exact hsmooth rfl
  generalize w.runs i = r, w'.runs i = r' at hmove hr
  rw [capturing_self] at hmove
  cases hmove with
  | main hm => exact hm.inStep rfl (by simpa [Label.plumbs] using hl) hr
  | monitor hm =>
    exact hr.frame hm.main_eq hm.waiter_eq hm.output_eq
  | wait => exact absurd rfl (hwait _)
  | drain hm =>
    cases hm with
    | readBytes => exact absurd rfl (hbytes _ _)
    | readInterrupted => exact absurd rfl (hdrain _ _ rfl)
    | readEof pc | readError pc => exact hr.endDrain pc
    | send => simp [Label.plumbs] at hl
  | proc | cancelKill => exact hr.frame rfl rfl rfl
  | other => exact hr

/-- A step of `wait` up to its answer. -/
theorem backward_wait {a : WaitAct} (hr : InStep (w.runs i) p)
    (hs : Smooth i (w.plain i p) (.wait i a))
    (h : step env (capturing cfg i false) (w.plain i p) (.wait i a) = some v) :
    a ≠ .send ∧ a ≠ .exit ∧ ∃ w', step env (capturing cfg i true) w (.wait i a) = some w' ∧
      v = w'.plain i (w'.runs i).waiter.pc ∧ InStep (w'.runs i) (w'.runs i).waiter.pc := by
  obtain ⟨hout, herr⟩ := hs rfl
  have hmove : ∃ t o x, WaitMove env false (w.runs i).tree (w.runs i).output.plain ⟨p, none⟩ a
      t o x := by
    obtain ⟨⟨t, o, x⟩, hx, -⟩ := Option.map_eq_some_iff.mp h
    rw [plain_runs_self, capturing_self] at hx
    exact ⟨t, o, x, waitMove_of_step hx⟩
  obtain ⟨t, o, x, hmove⟩ := hmove
  -- an answer that the other run has taken is behind both
  have hne : (w.runs i).waiter.pc ≠ .ended := fun hpc => by
    obtain ⟨-, res, rfl⟩ := hr.ended hpc
    cases hmove with
    | send _ thread => cases thread
    | _ pc => cases pc
  have hp := hr.same hne
  have hsend : a ≠ .send := by
    rintro rfl
    cases hmove with
    | send _ thread => cases thread
  have hexit : a ≠ .exit := by
    rintro rfl
    cases hmove with
    | exit pc => exact hr.sent (hp.symm.trans pc)
  refine ⟨hsend, hexit, ?_⟩
  rw [hp, step_plain_wait hsend hexit] at h
  obtain ⟨w', hw', rfl⟩ := Option.map_eq_some_iff.mp h
  refine ⟨w', hw', rfl, ?_⟩
  obtain ⟨⟨t, o, x⟩, hx, h⟩ := Option.map_eq_some_iff.mp hw'
  cases h
  rw [setRun_runs_self]
  have hwm := waitMove_of_step hx
  rw [capturing_self] at hwm
  exact hwm.inStep hsend hexit hout herr (hr.waiting hwm.pc_ne_idle hne) hr

/-! Steps that one thread of run `i` makes after the other. -/

theorem setRun_self (w : World ι) (i : ι) : w.setRun i (w.runs i) = w := by
  simp [World.setRun]

theorem step_setRun_main {a : MainAct} {r r' : Run}
    (h : MainMove env (cfg i) i w.handle r a w.handle r')
    (hends : a.endsCallback = false ∨ w.callers (.callback i) = .idle) :
    step env cfg (w.setRun i r) (.main i a) = some (w.setRun i r') := by
  have hidle : a.endsCallback = true → w.callers (.callback i) = .idle := fun ha =>
    hends.resolve_left (by rw [ha]; simp)
  rw [step_of_mainMove (w := w.setRun i r) (by rw [setRun_runs_self]; exact h) hidle]
  exact congrArg some (setRun_setRun w i r r')

theorem step_setRun_wait {a : WaitAct} {r : Run} {t : Tree} {o : Output} {x : Waiter}
    (h : WaitMove env (cfg i).captureOutput r.tree r.output r.waiter a t o x) :
    step env cfg (w.setRun i r) (.wait i a) =
      some (w.setRun i { r with tree := t, output := o, waiter := x }) := by
  rw [step_of_waitMove (w := w.setRun i r) (by rw [setRun_runs_self]; exact h), setRun_setRun,
    setRun_runs_self]

theorem step_setRun_drain {s : Stream} {a : DrainAct} {r : Run} {t : Tree} {o : Output}
    (h : DrainMove (cfg i).captureOutput s r.tree r.output a t o) :
    step env cfg (w.setRun i r) (.drain i s a) =
      some (w.setRun i { r with tree := t, output := o }) := by
  rw [step_of_drainMove (w := w.setRun i r) (by rw [setRun_runs_self]; exact h), setRun_setRun,
    setRun_runs_self]

/-- The call of `wait`: with capture the channel is opened and the wait thread started. -/
theorem backward_callWait (hw : Reaches env (capturing cfg i true) tr w)
    (hr : InStep (w.runs i) p)
    (h : step env (capturing cfg i false) (w.plain i p) (.main i .callWait) = some v) :
    ∃ w' p', Lts.exec (step env (capturing cfg i true)) w (expand i (.main i .callWait)) =
      some w' ∧ v = w'.plain i p' ∧ InStep (w'.runs i) p' := by
  obtain ⟨⟨hd, r⟩, hm, rfl⟩ := Option.map_eq_some_iff.mp h
  rw [capturing_self, plain_runs_self, plain_handle] at hm
  cases mainMove_of_step hm with
  | callWait pc =>
    have hmain : (w.runs i).main = .openChannel := MainPc.eq_openChannel hr.place pc
    have hbefore := (answered_of_reaches hw i).before (by rw [hmain]; rfl)
    have hidle := (answered_of_reaches hw i).drain_idle (.inl (by rw [hbefore]))
    refine ⟨w.setRun i { w.runs i with
        main := .pump
        waiter := { (w.runs i).waiter with pc := .startOut }
        output := { (w.runs i).output with chunks := ⟨[], false, true, true, true⟩ } },
      .startOut, ?exec, ?plain, ?keeps⟩
    case exec =>
      rw [expand, if_pos rfl]
      nth_rewrite 1 [← setRun_self w i]
      refine Lts.exec_of_step (step_setRun_main (.openChannel hmain) (.inl rfl)) ?_
      refine Lts.exec_of_step (step_setRun_main (.dropTx rfl) (.inl rfl)) ?_
      exact Lts.exec_of_step (step_setRun_main (.startWait rfl) (.inl rfl)) (Lts.exec_nil _)
    case plain =>
      rw [← plain_setRun_self w w.handle i _ p]
      rfl
    case keeps =>
      rw [setRun_runs_self]
      refine ⟨rfl, fun _ => rfl, fun h => absurd h (by simp), by simp, by simp, fun _ _ => rfl,
        fun _ => ⟨rfl, rfl, rfl, fun s hs => ?_⟩, fun _ _ => rfl, fun s bs hs => ?_⟩
      · exact absurd ((hidle s).symm.trans hs) (by simp)
      · exact absurd ((hidle s).symm.trans hs) (by simp)

/-- The return of `wait`: with capture the channel closes, the answer is sent, and the wait
thread is joined. -/
theorem backward_waitReturned (hr : InStep (w.runs i) p)
    (hdone : ∀ s, ((w.runs i).output.drain s).pc = .done)
    (h : step env (capturing cfg i false) (w.plain i p) (.main i .waitReturned) = some v) :
    ∃ w' p', Lts.exec (step env (capturing cfg i true)) w (expand i (.main i .waitReturned)) =
      some w' ∧ v = w'.plain i p' ∧ InStep (w'.runs i) p' := by
  obtain ⟨⟨hd, r⟩, hm, rfl⟩ := Option.map_eq_some_iff.mp h
  rw [capturing_self, plain_runs_self, plain_handle] at hm
  have hpump : (w.runs i).main = .pump := by
    refine MainPc.eq_pump hr.place ?_
    cases mainMove_of_step hm with
    | waitReturned pc | waitPanicked pc => exact pc
  obtain ⟨hqueue, htx, -, hsenders⟩ := hr.pumping hpump
  have hp : p = (w.runs i).waiter.pc := hr.same fun hpc => (hr.ended hpc).1 hpump
  cases mainMove_of_step hm with
  | waitPanicked _ panicked => exact absurd (hp.symm.trans panicked) hr.started
  | @waitReturned res pc returned =>
    have hreturned : (w.runs i).waiter.pc = .returned res := hp.symm.trans returned
    have hclosed : (w.runs i).output.chunks.closed = true := by
      have hout : (w.runs i).output.chunks.txOut = false := hsenders .stdout (hdone .stdout)
      have herr : (w.runs i).output.chunks.txErr = false := hsenders .stderr (hdone .stderr)
      simp [ChunkChan.closed, htx, hout, herr]
    refine ⟨w.setRun i (Run.afterWait { cfg i with captureOutput := true }
        { w.runs i with main := .joinWait res, waiter := ⟨.ended, none⟩ } res), p, ?exec, ?plain,
      ?keeps⟩
    case exec =>
      rw [expand, if_pos rfl, ← capturing_self true]
      nth_rewrite 1 [← setRun_self w i]
      refine Lts.exec_of_step (step_setRun_main (.recvClosed hpump hqueue hclosed) (.inl rfl)) ?_
      refine Lts.exec_of_step (step_setRun_wait (.send hreturned (by simp))) ?_
      refine Lts.exec_of_step (step_setRun_main (.recvWait rfl rfl) (.inl rfl)) ?_
      refine Lts.exec_of_step (step_setRun_wait (.exit rfl)) ?_
      exact Lts.exec_of_step (step_setRun_main (.joinWait rfl rfl) (.inl rfl)) (Lts.exec_nil _)
    case plain =>
      rw [← plain_setRun_self w w.handle i _ p, ← afterWait_plain]
      simp only [Run.plain, hpump]
      rfl
    case keeps =>
      rw [setRun_runs_self, show p = .returned res from returned]
      exact inStep_afterWait rfl hdone

/-- A read: with capture the piece is sent and delivered at once. -/
theorem backward_bytes (hw : Reaches env (capturing cfg i true) tr w) (hr : InStep (w.runs i) p)
    {s : Stream} {bs : List UInt8}
    (h : step env (capturing cfg i false) (w.plain i p) (.drain i s (.read (.bytes bs))) =
      some v) :
    ∃ w' p', Lts.exec (step env (capturing cfg i true)) w
        (expand i (.drain i s (.read (.bytes bs)))) = some w' ∧
      v = w'.plain i p' ∧ InStep (w'.runs i) p' := by
  have hplain : step env (capturing cfg i false) (w.plain i p) (.drain i s (.read (.bytes bs))) =
      (step env (capturing cfg i true) w (.drain i s (.read (.bytes bs)))).map (·.plain i p) :=
    step_plain rfl (by simp) (by simp [Smooth]) fun s' _ _ => hr.still s'
  rw [h] at hplain
  obtain ⟨w₁, hread, rfl⟩ := Option.map_eq_some_iff.mp hplain.symm
  obtain ⟨⟨t, o⟩, ho, hw₁⟩ := Option.map_eq_some_iff.mp hread
  rw [capturing_self] at ho
  cases drainMove_of_step ho with
  | readBytes pc pos le unread =>
    have hpump : (w.runs i).main = .pump := hr.reading s pc
    obtain ⟨hqueue, htx, hrx, hsenders⟩ := hr.pumping hpump
    have hidle : w.callers (.callback i) = .idle := by
      by_contra hk
      have := inCallback_of_reaches hw hk
      rw [hpump] at this
      cases this
    generalize ht : (w.runs i).tree.setBuf s (((w.runs i).tree.buf s).drop bs.length) = t at hw₁
    generalize hmsg : s.makeMsg ((w.runs i).output.drain s).seq bs = m
    -- the channel is empty again when the callback returns
    refine ⟨w.setRun i { w.runs i with
        events := (w.runs i).events ++ [m.event]
        tree := t
        output := (w.runs i).output.setDrain s ⟨.reading, ((w.runs i).output.drain s).seq + 1⟩ },
      p, ?exec, ?plain, ?keeps⟩
    case exec =>
      rw [expand, if_pos rfl]
      refine Lts.exec_of_step hread ?_
      rw [← hw₁]
      have hsending : (((w.runs i).output.setDrain s
          ⟨.sending bs, ((w.runs i).output.drain s).seq⟩).drain s).pc = .sending bs := by simp
      refine Lts.exec_of_step (step_setRun_drain (.send hsending)) ?_
      refine Lts.exec_of_step (step_setRun_main (.recv hpump (m := m) (q := []) ?_) (.inl rfl)) ?_
      · simp [ChunkChan.send_of_rx hrx, hqueue, hmsg]
      refine Lts.exec_of_step (step_setRun_main (.chunkReturns rfl) (.inr hidle)) ?_
      have hchunks : { (w.runs i).output.chunks with queue := [] } = (w.runs i).output.chunks := by
        rw [← hqueue]
      rw [Lts.exec_nil]
      refine congrArg (fun r => some (w.setRun i r)) ?_
      cases s <;> simp [Output.setDrain, ChunkChan.send_of_rx hrx, hchunks, hpump, Output.drain]
    case plain =>
      rw [← hw₁, ← plain_setRun_self w w.handle i _ p, ← plain_setRun_self w w.handle i _ p]
      congr 1
      simp [Run.plain, DrainPc.plain, ← hmsg]
    case keeps =>
      rw [setRun_runs_self]
      exact hr.deliver pc

omit [DecidableEq ι] in
/-- Of the steps that are there only with capture, none is made without. -/
theorem MainMove.of_plain {c : RunConfig} {hd hd' : CancelHandle ι} {r r' : Run} {a : MainAct}
    (h : MainMove env c i hd (r.plain p) a hd' r') (ha : a.plumbs = true) :
    a = .callWait ∨ a = .waitReturned := by
  have hmain : (r.plain p).main = r.main.plain := rfl
  cases h with
  | callWait => exact .inl rfl
  | waitReturned | waitPanicked => exact .inr rfl
  | openChannel pc | dropTx pc | startWait pc | startWaitFails pc | recv pc | recvClosed pc
  | chunkReturns pc | chunkPanics pc | recvWait pc | recvWaitLost pc | joinWait pc =>
    rw [hmain] at pc
    cases hm : r.main <;> rw [hm] at pc <;> cases pc
  | _ => cases ha

theorem not_plumbs_of_plain (hcall : l ≠ .main i .callWait) (hreturned : l ≠ .main i .waitReturned)
    (hwait : ∀ a, l ≠ .wait i a) (h : step env cfg (w.plain i p) l = some v) :
    l.plumbs i = false := by
  cases l with
  | monitor | cancel | proc => rfl
  | main j a =>
    by_contra hl
    obtain ⟨rfl, ha⟩ : j = i ∧ a.plumbs = true := by simpa [Label.plumbs] using hl
    simp only [step] at h
    split at h
    · cases h
    · obtain ⟨⟨hd, r⟩, hr, -⟩ := Option.map_eq_some_iff.mp h
      rw [plain_runs_self] at hr
      rcases (mainMove_of_step hr).of_plain ha with rfl | rfl
      · exact hcall rfl
      · exact hreturned rfl
  | wait j a =>
    have hj : j ≠ i := fun hj => hwait a (by rw [hj])
    cases a <;> simp [Label.plumbs, hj]
  | drain j s a =>
    cases a with
    | read => rfl
    | send =>
      by_contra hl
      obtain rfl : j = i := by simpa [Label.plumbs] using hl
      obtain ⟨⟨t, o⟩, ho, -⟩ := Option.map_eq_some_iff.mp h
      rw [plain_runs_self] at ho
      -- without capture a drain thread goes on to its next read
      cases drainMove_of_step ho with
      | send pc =>
        simp only [Run.plain, Output.plain_drain] at pc
        cases hd : ((w.runs j).output.drain s).pc <;> rw [hd] at pc <;> cases pc

theorem expand_eq_self (hcall : l ≠ .main i .callWait) (hreturned : l ≠ .main i .waitReturned)
    (hbytes : ∀ s bs, l ≠ .drain i s (.read (.bytes bs))) : expand i l = [l] := by
  unfold expand
  split
  · exact if_neg fun hj => hcall (by rw [hj])
  · exact if_neg fun hj => hreturned (by rw [hj])
  · exact if_neg fun hj => hbytes _ _ (by rw [hj])
  · rfl

/-- A chunk is delivered at once, so a callback does not call `cancel()` from it. -/
theorem smooth_of_plain (hr : InStep (w.runs i) p) (hs : Smooth i (w.plain i p) l) :
    Smooth i w l := by
  cases l with
  | cancel k a =>
    cases a with
    | swap =>
      intro _ hm
      have := hr.place
      rw [hm] at this
      cases this
    | _ => trivial
  | _ => exact hs

theorem smooth_expand (hs : Smooth i w l) :
    Lts.Along (step env cfg) (Smooth i) w (expand i l) := by
  have hself : Lts.Along (step env cfg) (Smooth i) w [l] := ⟨hs, fun _ _ => trivial⟩
  unfold expand
  split
  · split
    · exact Lts.along_of_forall_mem (by simp [Smooth])
    · exact hself
  · split
    · exact Lts.along_of_forall_mem (by simp [Smooth])
    · exact hself
  · split
    · exact Lts.along_of_forall_mem (by simp [Smooth])
    · exact hself
  · exact hself

/-- **Each step without capture is made up of steps with it.** -/
theorem backward_step (hw : Reaches env (capturing cfg i true) tr w) (hr : InStep (w.runs i) p)
    (hs : Smooth i (w.plain i p) l)
    (hdone : l = .main i .waitReturned → ∀ s, ((w.runs i).output.drain s).pc = .done)
    (h : step env (capturing cfg i false) (w.plain i p) l = some v) :
    ∃ w' p', Lts.exec (step env (capturing cfg i true)) w (expand i l) = some w' ∧
      v = w'.plain i p' ∧ InStep (w'.runs i) p' := by
  by_cases hcall : l = .main i .callWait
  · subst hcall
    exact backward_callWait hw hr h
  by_cases hreturned : l = .main i .waitReturned
  · subst hreturned
    exact backward_waitReturned hr (hdone rfl) h
  by_cases hbytes : ∃ s bs, l = .drain i s (.read (.bytes bs))
  · obtain ⟨s, bs, rfl⟩ := hbytes
    exact backward_bytes hw hr h
  have hbytes : ∀ s bs, l ≠ .drain i s (.read (.bytes bs)) := fun s bs hl => hbytes ⟨s, bs, hl⟩
  rw [expand_eq_self hcall hreturned hbytes]
  by_cases hwait : ∃ a, l = .wait i a
  · obtain ⟨a, rfl⟩ := hwait
    obtain ⟨-, -, w', hw', rfl, hr'⟩ := backward_wait hr hs h
    exact ⟨w', _, Lts.exec_of_step hw' (Lts.exec_nil _), rfl, hr'⟩
  have hwait : ∀ a, l ≠ .wait i a := fun a hl => hwait ⟨a, hl⟩
  have hplumbs := not_plumbs_of_plain hcall hreturned hwait h
  have hsmooth := smooth_of_plain hr hs
  have hplain : step env (capturing cfg i false) (w.plain i p) l =
      (step env (capturing cfg i true) w l).map (·.plain i p) :=
    step_plain hplumbs hwait hsmooth fun s _ _ => hr.still s
  rw [h] at hplain
  obtain ⟨w', hw', rfl⟩ := Option.map_eq_some_iff.mp hplain.symm
  exact ⟨w', p, Lts.exec_of_step hw' (Lts.exec_nil _), rfl,
    inStep_step hplumbs hwait hsmooth hbytes hw' hr⟩

/-- What a run with capture needs to keep in step: when `wait` returns, both drain threads have
come to the end of their pipes. -/
def DoneOnReturn (i : ι) (v : World ι) (l : Label ι) : Prop :=
  l = .main i .waitReturned → ∀ s, ((v.runs i).output.drain s).pc = .done

/-- **A run without capture is made up into a run with it.** -/
theorem backward_of_reaches (h : Reaches env (capturing cfg i false) tr v)
    (hs : Lts.Along (step env (capturing cfg i false)) (Smooth i) (World.init ι env) tr)
    (hdone : Lts.Along (step env (capturing cfg i false)) (DoneOnReturn i) (World.init ι env) tr) :
    ∃ w p, Reaches env (capturing cfg i true) (tr.flatMap (expand i)) w ∧
      Lts.Along (step env (capturing cfg i true)) (Smooth i) (World.init ι env)
        (tr.flatMap (expand i)) ∧ v = w.plain i p := by
  obtain ⟨w, hw, halong, -, p, rfl, -⟩ := Lts.exec_simulation
    (step env (capturing cfg i true)) (Smooth i)
    (fun v w => (∃ tr, Reaches env (capturing cfg i true) tr w) ∧
      ∃ p, v = w.plain i p ∧ InStep (w.runs i) p)
    (expand i) (t := World.init ι env)
    (by
      rintro _ l v' w ⟨⟨tr, hw⟩, p, rfl, hr⟩ ⟨hs, hdone⟩ hstep
      have hdone' : l = .main i .waitReturned → ∀ s, ((w.runs i).output.drain s).pc = .done :=
        fun hl s => by simpa [Run.plain] using hdone hl s
      obtain ⟨w', p', hexec, rfl, hr'⟩ := backward_step hw hr hs hdone' hstep
      exact ⟨w', hexec, smooth_expand (smooth_of_plain hr hs),
        ⟨_, Lts.exec_append_eq_some.mpr ⟨w, hw, hexec⟩⟩, p', rfl, hr'⟩)
    ⟨⟨[], rfl⟩, .idle, init_plain.symm, inStep_init⟩ h (hs.and hdone)
  exact ⟨w, p, hw, halong, rfl⟩

end Runs

end AerCore
