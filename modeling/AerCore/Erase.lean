import AerCore.Standing

/-!
# A captured run without its capture

The two modes of `run_impl` have the same threads but for one.  With capture `wait` runs on a
thread of its own, and the run thread delivers what the drain threads send until the channel
closes, then takes the answer of `wait` and joins its thread; without capture the run thread
calls `wait` itself and the drain threads throw away what they read.

Every step of the one mode that the other has, too, does the same to both: `World.plain` takes
a world with capture to the world without, and `erase` drops the steps that only capture has.
A call of `wait` that has sent its answer with capture has only returned it without, so the
place of the call is kept apart.

## Main definitions

* `Run.plain`, `World.plain w i p` — the state without the capture of run `i`; `wait` is at `p`.
* `erase i`, `expand i` — the steps without capture and with it.
* `Smooth i` — what is taken for granted of the callback, of the reads and of thread creation.

## Main results

* `step_plain`, `step_plain_wait` — a step that both modes have does the same to both.
* `forward_of_reaches` — **a run with capture comes down to a run without.**
-/

namespace AerCore

variable {ι : Type*}

/-! ### A captured run without its capture -/

/-- Where the run thread would be without capture. -/
def MainPc.plain : MainPc → MainPc
  | .openChannel | .dropTx | .startWait => .callWait
  | .pump | .inChunk | .recvWait | .joinWait _ => .inWait
  | m => m

/-- Where a drain thread would be without capture. -/
def DrainPc.plain : DrainPc → DrainPc
  | .sending _ => .reading
  | d => d

/-- The drain threads without their channel. -/
def Output.plain (o : Output) : Output := ⟨.none, ⟨o.stdout.pc.plain, 0⟩, ⟨o.stderr.pc.plain, 0⟩⟩

/-- The event is one of the lifecycle. -/
def Event.isLifecycle (e : Event) : Bool := !e.isChunk

/-- The run without its capture; `wait` stands at `p`. -/
def Run.plain (r : Run) (p : WaitPc) : Run :=
  { r with
    main := r.main.plain
    events := r.events.filter Event.isLifecycle
    waiter := ⟨p, none⟩
    output := r.output.plain }

/-- A step of the run thread that is there only with capture, or only without. -/
def MainAct.plumbs : MainAct → Bool
  | .openChannel | .dropTx | .startWait _ | .recv | .recvClosed | .chunkReturns | .chunkPanics
  | .recvWait | .joinWait | .callWait | .waitReturned => true
  | _ => false

variable {env : Env} {c : RunConfig} {i : ι} {hd : CancelHandle ι} {r : Run} {p : WaitPc}

/-- A step that is there with capture and without does the same to both. -/
theorem runImplStep_plain {a : MainAct} (ha : a.plumbs = false) :
    runImplStep env { c with captureOutput := false } i hd (r.plain p) a =
      (runImplStep env { c with captureOutput := true } i hd r a).map
        fun (hd', r') => (hd', r'.plain p) := by
  obtain ⟨main, machine, armed, events, monitor, timedOut, stopMsg, stopTx, waiter, output,
    tree⟩ := r
  cases a with
  | openChannel | dropTx | startWait | recv | recvClosed | chunkReturns | chunkPanics
  | recvWait | joinWait | callWait | waitReturned => cases ha
  | spawn b =>
    cases main with
    | spawn s =>
      simp only [runImplStep, Run.plain, MainPc.plain, Option.map_map]
      congr 1
      ext1 ⟨t, n⟩
      cases n <;> rfl
    | _ => rfl
  | started =>
    cases main with
    | toRunning pid =>
      simp only [runImplStep, Run.plain, MainPc.plain]
      cases machine.transition .running with
      | ok m => simp [Event.isLifecycle, Event.isChunk]
      | error e => rfl
    | _ => rfl
  | startedReturns =>
    cases main with
    | inStarted => cases c.cancel <;> simp [runImplStep, Run.plain, MainPc.plain]
    | _ => rfl
  | startedPanics => cases main <;> rfl
  | wire =>
    cases main with
    | wire => cases hl : hd.locked <;> simp [runImplStep, Run.plain, MainPc.plain, hl]
    | _ => rfl
  | loadCancelled b =>
    cases main with
    | loadCancelled =>
      by_cases hb : hd.cancelled = b
      · cases b <;> simp [runImplStep, Run.plain, MainPc.plain, hb]
      · simp [runImplStep, Run.plain, MainPc.plain, hb]
    | _ => rfl
  | loadFired b =>
    cases main with
    | loadFired =>
      by_cases hb : hd.killFired = b
      · cases b <;> simp [runImplStep, Run.plain, MainPc.plain, hb]
      · simp [runImplStep, Run.plain, MainPc.plain, hb]
    | _ => rfl
  | probe x =>
    cases main with
    | probe q =>
      simp only [runImplStep, Run.plain, MainPc.plain, Option.map_map]
      congr 1
      funext n
      rcases n with q' | b
      · rfl
      · cases b <;> rfl
    | _ => rfl
  | fire => cases main <;> rfl
  | kill b =>
    cases main with
    | kill k =>
      simp only [runImplStep, Run.plain, MainPc.plain, Option.map_map]
      congr 1
      ext1 ⟨t, k'⟩
      cases k' <;> rfl
    | _ => rfl
  | startMonitor ok =>
    cases main with
    | startMonitor =>
      cases c.timeout <;> cases ok <;>
        simp [runImplStep, Run.plain, MainPc.plain, RunConfig.afterMonitor]
    | _ => rfl
  | clear =>
    cases main with
    | clear code => cases hl : hd.locked <;> simp [runImplStep, Run.plain, MainPc.plain, hl]
    | _ => rfl
  | stopMonitor => cases main <;> rfl
  | loadTimedOut b =>
    cases main with
    | loadTimedOut code =>
      by_cases hb : timedOut = b <;> simp [runImplStep, Run.plain, MainPc.plain, hb]
    | _ => rfl
  | loadKillFired b =>
    cases main with
    | loadKillFired code t =>
      by_cases hb : (c.cancel && hd.killFired) = b <;>
        simp [runImplStep, Run.plain, MainPc.plain, hb]
    | _ => rfl
  | exited =>
    cases main with
    | toExited code t cn =>
      simp only [runImplStep, Run.plain, MainPc.plain]
      cases machine.transition .exited with
      | ok m => simp [Event.isLifecycle, Event.isChunk]
      | error e => rfl
    | _ => rfl
  | exitedReturns => cases main <;> rfl
  | exitedPanics => cases main <;> rfl
  | dropLocals =>
    cases main with
    | leave o => cases armed <;> rfl
    | _ => rfl
  | guardKill b =>
    cases main with
    | guardKill k o =>
      simp only [runImplStep, Run.plain, MainPc.plain, Option.map_map]
      congr 1
      ext1 ⟨t, k'⟩
      cases k' <;> rfl
    | _ => rfl
  | guardReap =>
    cases main with
    | guardReap o =>
      simp only [runImplStep, Run.plain, MainPc.plain, Option.map_map]
      rfl
    | _ => rfl

theorem monitorStep_plain (a : MonitorAct) :
    monitorStep env (r.plain p) a = (monitorStep env r a).map (·.plain p) := by
  obtain ⟨main, machine, armed, events, monitor, timedOut, stopMsg, stopTx, waiter, output,
    tree⟩ := r
  cases a with
  | message =>
    cases monitor with
    | recv => cases stopMsg <;> rfl
    | _ => rfl
  | disconnected | deadline =>
    cases monitor with
    | recv => cases stopMsg <;> cases stopTx <;> rfl
    | _ => rfl
  | probe x =>
    cases monitor with
    | probe q =>
      simp only [monitorStep, Run.plain, Option.map_map]
      congr 1
      funext n
      rcases n with q' | b
      · rfl
      · cases b <;> rfl
    | _ => rfl
  | store => cases monitor <;> rfl
  | kill b =>
    cases monitor with
    | kill k =>
      simp only [monitorStep, Run.plain, Option.map_map]
      congr 1
      ext1 ⟨t, k'⟩
      cases k' <;> rfl
    | _ => rfl

@[simp] theorem DrainPc.plain_eq_done {d : DrainPc} : d.plain = .done ↔ d = .done := by
  cases d <;> simp [DrainPc.plain]

/-- `wait` does the same on a thread of its own, up to its answer. -/
theorem waitStep_plain {t : Tree} {o : Output} {x : Waiter} {a : WaitAct} (hsend : a ≠ .send)
    (hexit : a ≠ .exit) :
    waitStep env false t o.plain ⟨x.pc, none⟩ a =
      (waitStep env true t o x a).map fun (t', o', x') => (t', o'.plain, ⟨x'.pc, none⟩) := by
  obtain ⟨pc, msg⟩ := x
  cases a with
  | send => exact absurd rfl hsend
  | exit => exact absurd rfl hexit
  | startOut ok =>
    cases pc with
    | startOut => cases ok <;> rfl
    | _ => rfl
  | startErr ok =>
    cases pc with
    | startErr => cases ok <;> rfl
    | _ => rfl
  | childWait x =>
    cases pc with
    | childWait =>
      cases x with
      | ok =>
        simp only [waitStep, Option.map_map]
        rfl
      | error e => rfl
    | _ => rfl
  | killTree x =>
    cases pc with
    | killTree res =>
      simp only [waitStep, Option.map_map]
      rfl
    | _ => rfl
  | joinOut =>
    cases pc with
    | joinOut res => by_cases hd : o.stdout.pc = .done <;> simp [waitStep, Output.plain, hd]
    | _ => rfl
  | joinErr =>
    cases pc with
    | joinErr res => by_cases hd : o.stderr.pc = .done <;> simp [waitStep, Output.plain, hd]
    | _ => rfl

@[simp] theorem Output.plain_drain (o : Output) (s : Stream) :
    o.plain.drain s = ⟨(o.drain s).pc.plain, 0⟩ := by
  cases s <;> rfl

@[simp] theorem Output.plain_setDrain (o : Output) (s : Stream) (d : Drain) :
    (o.setDrain s d).plain = o.plain.setDrain s ⟨d.pc.plain, 0⟩ := by
  cases s <;> rfl

@[simp] theorem Output.plain_endDrain (o : Output) (s : Stream) :
    (o.endDrain s).plain = o.plain.endDrain s := by
  cases s <;> rfl

/-- A drain thread takes the same bytes out of its pipe. -/
theorem drainStep_plain {s : Stream} {t : Tree} {o : Output} {x : ReadResult}
    (hx : x ≠ .interrupted) (hpc : ∀ bs, (o.drain s).pc ≠ .sending bs) :
    drainStep false s t o.plain (.read x) =
      (drainStep true s t o (.read x)).map fun (t', o') => (t', o'.plain) := by
  simp only [drainStep, Output.plain_drain]
  cases hd : (o.drain s).pc with
  | sending bs => exact absurd hd (hpc bs)
  | idle | done => rfl
  | reading =>
    cases x with
    | interrupted => exact absurd rfl hx
    | bytes bs =>
      by_cases hb : 0 < bs.length ∧ bs.length ≤ bufSize ∧ bs.isPrefixOf (t.buf s) = true
      · simp [DrainPc.plain, hb]
      · simp only [DrainPc.plain, if_neg hb, Option.map_none]
    | eof =>
      by_cases hb : t.buf s = [] ∧ t.held s = false
      · simp [DrainPc.plain, hb]
      · simp only [DrainPc.plain, if_neg hb, Option.map_none]
    | error e => simp [DrainPc.plain]

/-! ### The system without capture -/

/-- The configurations with capture switched on or off in run `i`. -/
def capturing [DecidableEq ι] (cfg : ι → RunConfig) (i : ι) (capture : Bool) : ι → RunConfig :=
  Function.update cfg i { cfg i with captureOutput := capture }

/-- The world without the capture of run `i`, where `wait` stands at `p`. -/
def World.plain [DecidableEq ι] (w : World ι) (i : ι) (p : WaitPc) : World ι :=
  w.setRun i ((w.runs i).plain p)

/-- A step that is there only with capture in run `i`, or only without. -/
def Label.plumbs [DecidableEq ι] (i : ι) : Label ι → Bool
  | .main j a => decide (j = i) && a.plumbs
  | .wait j .send | .wait j .exit | .drain j _ .send => decide (j = i)
  | _ => false

/-- The step without capture that a step of the run thread with capture comes down to. -/
def MainAct.erased : MainAct → Option MainAct
  | .startWait _ | .callWait => some .callWait
  | .joinWait | .waitReturned => some .waitReturned
  | .openChannel | .dropTx | .recv | .recvClosed | .chunkReturns | .chunkPanics | .recvWait => none
  | a => some a

/-- The step without capture, if any, that a step with capture comes down to. -/
def erase [DecidableEq ι] (i : ι) : Label ι → List (Label ι)
  | .main j a => if j = i then (a.erased.map (Label.main i)).toList else [.main j a]
  | .wait j a => if j = i ∧ (a = .send ∨ a = .exit) then [] else [.wait j a]
  | .drain j s a => if j = i ∧ a = .send then [] else [.drain j s a]
  | l => [l]

/-- The steps with capture that make up a step without. -/
def expand [DecidableEq ι] (i : ι) (l : Label ι) : List (Label ι) :=
  match l with
  | .main j .callWait =>
      if j = i then [.main i .openChannel, .main i .dropTx, .main i (.startWait true)] else [l]
  | .main j .waitReturned =>
      if j = i then
        [.main i .recvClosed, .wait i .send, .main i .recvWait, .wait i .exit, .main i .joinWait]
      else [l]
  | .drain j s (.read (.bytes bs)) =>
      if j = i then
        [.drain i s (.read (.bytes bs)), .drain i s .send, .main i .recv, .main i .chunkReturns]
      else [l]
  | l => [l]

/-- What is taken for granted of a step: the threads of run `i` can be started, a read is not
interrupted, and the callback returns from a chunk without having called `cancel()`. -/
def Smooth [DecidableEq ι] (i : ι) (w : World ι) : Label ι → Prop
  | .main j a => j = i → a ≠ .chunkPanics ∧ a ≠ .startWait false
  | .wait j a => j = i → a ≠ .startOut false ∧ a ≠ .startErr false
  | .drain j _ a => j = i → a ≠ .read .interrupted
  | .cancel k (.swap _) => k = .callback i → (w.runs i).main ≠ .inChunk
  | _ => True

section Worlds

variable [DecidableEq ι] {cfg : ι → RunConfig} {w : World ι} {l : Label ι}

@[simp] theorem capturing_self (b : Bool) :
    capturing cfg i b i = { cfg i with captureOutput := b } := by
  simp [capturing]

theorem capturing_ne {j : ι} (b : Bool) (h : j ≠ i) : capturing cfg i b j = cfg j := by
  simp [capturing, h]

@[simp] theorem plain_runs_self (w : World ι) (i : ι) (p : WaitPc) :
    (w.plain i p).runs i = (w.runs i).plain p := by
  simp [World.plain]

theorem plain_runs_ne (w : World ι) {i j : ι} (p : WaitPc) (h : j ≠ i) :
    (w.plain i p).runs j = w.runs j :=
  setRun_runs_ne _ _ h

@[simp] theorem plain_handle (w : World ι) (i : ι) (p : WaitPc) :
    (w.plain i p).handle = w.handle := rfl

@[simp] theorem plain_callers (w : World ι) (i : ι) (p : WaitPc) :
    (w.plain i p).callers = w.callers := rfl

@[simp] theorem plain_tree (w : World ι) (i j : ι) (p : WaitPc) :
    ((w.plain i p).runs j).tree = (w.runs j).tree := by
  by_cases h : j = i
  · subst h
    rw [plain_runs_self]
    rfl
  · rw [plain_runs_ne w p h]

theorem plain_setRun_self (w : World ι) (hd : CancelHandle ι) (i : ι) (r : Run) (p q : WaitPc) :
    World.setRun { w.plain i p with handle := hd } i (r.plain q) =
      (World.setRun { w with handle := hd } i r).plain i q := by
  simp [World.plain, World.setRun]

theorem plain_setRun_ne (w : World ι) (hd : CancelHandle ι) {i j : ι} (r : Run) (p : WaitPc)
    (h : j ≠ i) :
    World.setRun { w.plain i p with handle := hd } j r =
      (World.setRun { w with handle := hd } j r).plain i p := by
  simp [World.plain, World.setRun, Function.update_comm h, Function.update_of_ne h.symm]

theorem plain_setTree (w : World ι) (i j : ι) (t : Tree) (p : WaitPc) :
    (w.plain i p).setTree j t = (w.setTree j t).plain i p := by
  by_cases h : j = i
  · subst h
    unfold World.setTree
    rw [plain_runs_self]
    exact plain_setRun_self w w.handle j { w.runs j with tree := t } p p
  · unfold World.setTree
    rw [plain_runs_ne w p h]
    exact plain_setRun_ne w w.handle _ p h

/-- A call of `cancel()` does the same to both. -/
theorem cancelStep_plain {k : CallerId ι} {a : CancelAct ι}
    (hchunk : ∀ was, a = .swap was → k = .callback i → (w.runs i).main ≠ .inChunk) :
    cancelStep env (w.plain i p) k a = (cancelStep env w k a).map (·.plain i p) := by
  cases a with
  | swap was =>
    have hmay : (w.plain i p).mayCall k = w.mayCall k := by
      cases k with
      | thread => rfl
      | callback j =>
        by_cases hj : j = i
        · subst hj
          have hne := hchunk was rfl rfl
          simp only [World.mayCall, plain_runs_self, Run.plain]
          cases hm : (w.runs j).main <;> first | rfl | exact absurd hm hne
        · simp only [World.mayCall, plain_runs_ne w p hj]
    simp only [cancelStep, plain_callers, plain_handle, hmay]
    cases w.callers k with
    | idle =>
      by_cases hm : w.mayCall k = true ∧ w.handle.cancelled = was
      · simp only [if_pos hm]
        rfl
      · simp only [if_neg hm, Option.map_none]
    | _ => rfl
  | lock =>
    simp only [cancelStep, plain_callers]
    cases w.callers k with
    | lock =>
      by_cases hlocked : w.handle.locked = true
      · have hlocked' : (w.plain i p).handle.locked = true := hlocked
        simp only [if_pos hlocked, if_pos hlocked', Option.map_none]
      · have hlocked' : ¬(w.plain i p).handle.locked = true := hlocked
        simp only [if_neg hlocked, if_neg hlocked']
        rfl
    | _ => rfl
  | probe j x =>
    simp only [cancelStep, plain_callers, plain_tree]
    cases w.callers k with
    | probe j' q =>
      by_cases hj : j = j'
      · simp only [hj, if_true, Option.map_map]
        congr 1
        funext n
        rcases n with q' | b
        · rfl
        · cases b <;> rfl
      · simp only [hj, if_false, Option.map_none]
    | _ => rfl
  | fire j =>
    simp only [cancelStep, plain_callers, plain_handle]
    cases w.callers k with
    | fire j' => by_cases hj : j = j' <;> simp only [hj, if_true, if_false] <;> rfl
    | _ => rfl
  | kill j b =>
    simp only [cancelStep, plain_callers, plain_tree]
    cases w.callers k with
    | kill j' q =>
      by_cases hj : j = j'
      · simp only [hj, if_true, Option.map_map]
        congr 1
        ext1 ⟨t, k'⟩
        cases k' <;> simp only [Function.comp, plain_setTree] <;> rfl
      · simp only [hj, if_false, Option.map_none]
    | _ => rfl
  | unlock =>
    simp only [cancelStep, plain_callers, plain_handle]
    cases w.callers k <;> rfl

/-- **A step that is there with capture and without does the same to both.** -/
theorem step_plain (hl : l.plumbs i = false) (hwait : ∀ a, l ≠ .wait i a)
    (hsmooth : Smooth i w l)
    (hdrain : ∀ s a, l = .drain i s a → ∀ bs, ((w.runs i).output.drain s).pc ≠ .sending bs) :
    step env (capturing cfg i false) (w.plain i p) l =
      (step env (capturing cfg i true) w l).map (·.plain i p) := by
  cases l with
  | main j a =>
    simp only [step]
    by_cases hheld : a.endsCallback = true ∧ w.callers (.callback j) ≠ .idle
    · have hheld' : a.endsCallback = true ∧ (w.plain i p).callers (.callback j) ≠ .idle := hheld
      rw [if_pos hheld, if_pos hheld', Option.map_none]
    · have hheld' : ¬(a.endsCallback = true ∧ (w.plain i p).callers (.callback j) ≠ .idle) := hheld
      rw [if_neg hheld, if_neg hheld']
      by_cases hj : j = i
      · subst hj
        have ha : a.plumbs = false := by simpa [Label.plumbs] using hl
        rw [capturing_self, capturing_self, plain_runs_self, plain_handle, runImplStep_plain ha,
          Option.map_map, Option.map_map]
        congr 1
        ext1 ⟨hd, r⟩
        exact plain_setRun_self w hd j r p p
      · rw [capturing_ne _ hj, capturing_ne _ hj, plain_runs_ne w p hj, plain_handle,
          Option.map_map]
        congr 1
        ext1 ⟨hd, r⟩
        exact plain_setRun_ne w hd r p hj
  | monitor j a =>
    simp only [step]
    by_cases hj : j = i
    · subst hj
      rw [plain_runs_self, monitorStep_plain, Option.map_map, Option.map_map]
      congr 1
      funext r
      exact plain_setRun_self w w.handle j r p p
    · rw [plain_runs_ne w p hj, Option.map_map]
      congr 1
      funext r
      exact plain_setRun_ne w w.handle r p hj
  | wait j a =>
    have hj : j ≠ i := fun hj => hwait a (by rw [hj])
    simp only [step]
    rw [capturing_ne _ hj, capturing_ne _ hj, plain_runs_ne w p hj, Option.map_map]
    congr 1
    ext1 ⟨t, o, x⟩
    exact plain_setRun_ne w w.handle _ p hj
  | drain j s a =>
    simp only [step]
    by_cases hj : j = i
    · subst hj
      cases a with
      | send => simp [Label.plumbs] at hl
      | read x =>
        have hx : x ≠ .interrupted := by
          rintro rfl
          exact hsmooth rfl rfl
        rw [capturing_self, capturing_self, plain_runs_self, Run.plain,
          drainStep_plain hx (hdrain s _ rfl), Option.map_map, Option.map_map]
        congr 1
        ext1 ⟨t, o⟩
        exact plain_setRun_self w w.handle j { w.runs j with tree := t, output := o } p p
    · rw [capturing_ne _ hj, capturing_ne _ hj, plain_runs_ne w p hj, Option.map_map]
      congr 1
      ext1 ⟨t, o⟩
      exact plain_setRun_ne w w.handle _ p hj
  | cancel k a =>
    refine cancelStep_plain fun was ha hk => ?_
    subst ha
    exact hsmooth hk
  | proc j a =>
    simp only [step, plain_tree, Option.map_map]
    congr 1
    funext t
    exact plain_setTree w i j t p

/-- So does a step of `wait`. -/
theorem step_plain_wait {a : WaitAct} (hsend : a ≠ .send) (hexit : a ≠ .exit) :
    step env (capturing cfg i false) (w.plain i (w.runs i).waiter.pc) (.wait i a) =
      (step env (capturing cfg i true) w (.wait i a)).map
        fun w' => w'.plain i (w'.runs i).waiter.pc := by
  simp only [step]
  rw [capturing_self, capturing_self, plain_runs_self]
  simp only [Run.plain]
  rw [waitStep_plain hsend hexit, Option.map_map, Option.map_map]
  congr 1
  ext1 ⟨t, o, x⟩
  simp only [Function.comp, setRun_runs_self]
  exact plain_setRun_self w w.handle i { w.runs i with tree := t, output := o, waiter := x } _ _

omit [DecidableEq ι] in
theorem MainAct.erased_of_not_plumbs {a : MainAct} (ha : a.plumbs = false) :
    a.erased = some a := by
  cases a <;> first | rfl | cases ha

theorem erase_of_not_plumbs (hl : l.plumbs i = false) : erase i l = [l] := by
  cases l with
  | main j a =>
    by_cases hj : j = i
    · subst hj
      have ha : a.plumbs = false := by simpa [Label.plumbs] using hl
      simp [erase, MainAct.erased_of_not_plumbs ha]
    · simp [erase, hj]
  | wait j a => cases a <;> simp_all [erase, Label.plumbs]
  | drain j s a => cases a <;> simp_all [erase, Label.plumbs]
  | _ => rfl

end Worlds

/-! ### From capture to no capture -/

/-- `wait` stands at `p` without capture: with it, its thread may have gone on to hand over the
answer. -/
structure Tracks (r : Run) (p : WaitPc) : Prop where
  /-- Up to its answer, `wait` is at the same place. -/
  same : r.waiter.pc ≠ .sent → r.waiter.pc ≠ .ended → p = r.waiter.pc
  /-- The answer is the same. -/
  heard : ∀ res, r.waiter.msg = some res ∨ r.main = .joinWait res → p = .returned res
  /-- `wait` has not panicked. -/
  started : r.waiter.pc ≠ .panicked

section Forward

variable {hd' : CancelHandle ι} {r' : Run} {a : MainAct}

theorem Tracks.frame (hT : Tracks r p) (hw : r'.waiter = r.waiter)
    (hm : ∀ res, r'.main = .joinWait res → r.main = .joinWait res) : Tracks r' p where
  same := by rw [hw]; exact hT.same
  heard := fun res h => hT.heard res (by rw [hw] at h; exact h.imp id (hm res))
  started := by rw [hw]; exact hT.started

theorem MainMove.waiter_eq (h : MainMove env c i hd r a hd' r') (ha : a.plumbs = false) :
    r'.waiter = r.waiter := by
  cases h <;> first | rfl | cases ha

/-- A step that is there with capture and without leaves `wait` alone. -/
theorem MainMove.tracks (h : MainMove env c i hd r a hd' r') (ha : a.plumbs = false)
    (hT : Tracks r p) : Tracks r' p := by
  refine hT.frame (h.waiter_eq ha) fun res hres => ?_
  have hedge := hres ▸ h.edge
  generalize r.main = m at hedge
  cases hedge
  cases ha

/-- The run thread goes on from the same answer. -/
theorem afterWait_plain (c : RunConfig) (r : Run) (p : WaitPc) (res : Except AerError ℤ) :
    (r.plain p).afterWait { c with captureOutput := false } res =
      (r.afterWait { c with captureOutput := true } res).plain p := by
  cases res with
  | ok code => cases c.cancel <;> simp [Run.afterWait, Run.plain, MainPc.plain]
  | error e => rfl

theorem Tracks.afterWait (hT : Tracks r p) (c : RunConfig) (res : Except AerError ℤ) :
    Tracks (r.afterWait c res) p := by
  cases res with
  | ok code =>
    refine hT.frame rfl fun res => ?_
    simp only [Run.afterWait]
    split <;> simp
  | error e => exact hT.frame rfl (by simp [Run.afterWait])

@[simp] theorem ChunkMsg.event_isLifecycle (m : ChunkMsg) : m.event.isLifecycle = false := by
  cases m <;> rfl

/-- What a step of the run thread that is there only with capture comes down to. -/
theorem MainMove.forward
    (h : MainMove env { c with captureOutput := true } i hd r a hd' r') (ha : a.plumbs = true)
    (hpanics : a ≠ .chunkPanics) (hfails : a ≠ .startWait false) (hT : Tracks r p)
    (hmsg : r.main.beforeWait = true → r.waiter.msg = none) :
    hd' = hd ∧ ∃ p', Tracks r' p' ∧ ((a.erased = none ∧ r'.plain p' = r.plain p) ∨
      ∃ b, a.erased = some b ∧ b.endsCallback = false ∧
        MainMove env { c with captureOutput := false } i hd (r.plain p) b hd (r'.plain p')) := by
  cases h with
  | openChannel pc | dropTx pc | recvClosed pc | chunkReturns pc =>
    refine ⟨rfl, p, hT.frame rfl (by simp), .inl ⟨rfl, ?_⟩⟩
    simp [Run.plain, MainPc.plain, Output.plain, pc]
  | recv pc =>
    refine ⟨rfl, p, hT.frame rfl (by simp), .inl ⟨rfl, ?_⟩⟩
    simp [Run.plain, MainPc.plain, Output.plain, pc]
  | chunkPanics => exact absurd rfl hpanics
  | startWaitFails => exact absurd rfl hfails
  | startWait pc | callWait pc =>
    refine ⟨rfl, .startOut, ⟨fun _ _ => rfl, fun res hres => ?_, by simp⟩,
      .inr ⟨.callWait, rfl, rfl, ?_⟩⟩
    · rw [hmsg (by rw [pc]; rfl)] at hres
      rcases hres with hres | hres <;> cases hres
    · have hpc : (r.plain p).main = .callWait := by
        change r.main.plain = _
        rw [pc]
        rfl
      exact .callWait hpc
  | recvWait pc msg =>
    refine ⟨rfl, p, ⟨hT.same, fun res hres => ?_, hT.started⟩, .inl ⟨rfl, ?_⟩⟩
    · rcases hres with hres | hres
      · cases hres
      · cases hres
        exact hT.heard _ (.inl msg)
    · simp [Run.plain, MainPc.plain, pc]
  | recvWaitLost _ _ panicked | waitPanicked _ panicked => exact absurd panicked hT.started
  | @joinWait res pc | @waitReturned res pc =>
    have hpc : (r.plain p).main = .inWait := by
      change r.main.plain = _
      rw [pc]
      rfl
    have hp : p = .returned res := by
      first
      | exact hT.heard res (.inr pc)
      | next returned => rw [hT.same (by simp [returned]) (by simp [returned]), returned]
    refine ⟨rfl, p, hT.afterWait _ res, .inr ⟨.waitReturned, rfl, rfl, ?_⟩⟩
    rw [← afterWait_plain]
    exact .waitReturned hpc hp
  | _ => cases ha

end Forward

section Runs

variable [DecidableEq ι] {cfg : ι → RunConfig} {tr : List (Label ι)} {w w' : World ι}
  {l : Label ι}

/-- A step of run `i` that changes nothing without capture. -/
theorem plain_setRun_of_eq {r : Run} {q : WaitPc} (h : r.plain q = (w.runs i).plain p) :
    (w.setRun i r).plain i q = w.plain i p := by
  rw [← plain_setRun_self w w.handle i r p q, h]
  simp [World.plain, World.setRun]

/-- Steps of the drain threads of run `i` are made from the reading loop. -/
theorem not_sending_of_step {s : Stream} {a : DrainAct} (ha : a ≠ .send)
    (h : step env cfg w (.drain i s a) = some w') (bs : List UInt8) :
    ((w.runs i).output.drain s).pc ≠ .sending bs := by
  obtain ⟨⟨t, o⟩, hd, -⟩ := Option.map_eq_some_iff.mp h
  cases drainMove_of_step hd with
  | send => exact absurd rfl ha
  | readBytes pc | readEof pc | readInterrupted pc | readError pc => simp [pc]

theorem tracks_step (hl : l.plumbs i = false) (hwait : ∀ a, l ≠ .wait i a)
    (h : step env cfg w l = some w') (hT : Tracks (w.runs i) p) : Tracks (w'.runs i) p := by
  have hmove := runMove_of_step h i
  generalize w.runs i = r, w'.runs i = r' at hmove hT
  cases hmove with
  | main hm => exact hm.tracks (by simpa [Label.plumbs] using hl) hT
  | monitor hm =>
    have hwaiter := hm.waiter_eq
    exact hT.frame hwaiter fun res hres => hm.main_eq ▸ hres
  | wait => exact absurd rfl (hwait _)
  | drain | proc | cancelKill => exact hT.frame rfl fun res => id
  | other => exact hT

/-- A step of `wait` up to its answer. -/
theorem forward_wait {a : WaitAct} (hsend : a ≠ .send) (hexit : a ≠ .exit)
    (hT : Tracks (w.runs i) p) (hs : Smooth i w (.wait i a))
    (h : step env (capturing cfg i true) w (.wait i a) = some w') :
    step env (capturing cfg i false) (w.plain i p) (.wait i a) =
        some (w'.plain i (w'.runs i).waiter.pc) ∧ Tracks (w'.runs i) (w'.runs i).waiter.pc := by
  have hplain : step env (capturing cfg i false) (w.plain i (w.runs i).waiter.pc) (.wait i a) =
      (step env (capturing cfg i true) w (.wait i a)).map
        fun w' => w'.plain i (w'.runs i).waiter.pc := step_plain_wait hsend hexit
  rw [h] at hplain
  obtain ⟨hout, herr⟩ := hs rfl
  obtain ⟨⟨t, o, x⟩, hx, h⟩ := Option.map_eq_some_iff.mp h
  cases h
  -- `wait` has not answered yet
  obtain ⟨hopen, hmsg, hpanicked⟩ : (w.runs i).waiter.pc.answered = false ∧
      x.msg = (w.runs i).waiter.msg ∧ x.pc ≠ .panicked := by
    cases waitMove_of_step hx with
    | send => exact absurd rfl hsend
    | exit => exact absurd rfl hexit
    | startOutFails => exact absurd rfl hout
    | startErrFails => exact absurd rfl herr
    | childWait pc | childWaitFails pc =>
      refine ⟨by rw [pc]; rfl, rfl, ?_⟩
      cases env.platform <;> simp [WaitPc.afterChildWait]
    | startOut pc | startErr pc | killTree pc | joinOut pc | joinErr pc =>
      exact ⟨by rw [pc]; rfl, rfl, by simp⟩
  have hp : p = (w.runs i).waiter.pc :=
    hT.same (fun hpc => by rw [hpc] at hopen; cases hopen)
      (fun hpc => by rw [hpc] at hopen; cases hopen)
  rw [hp]
  refine ⟨hplain, ⟨fun _ _ => rfl, fun res hres => ?_, by simpa using hpanicked⟩⟩
  simp only [setRun_runs_self, hmsg] at hres
  have := hp.symm.trans (hT.heard res hres)
  rw [this] at hopen
  cases hopen

/-- A step that is there only with capture. -/
theorem forward_plumbs (hw : Reaches env (capturing cfg i true) tr w) (hl : l.plumbs i = true)
    (hT : Tracks (w.runs i) p) (hs : Smooth i w l)
    (h : step env (capturing cfg i true) w l = some w') :
    ∃ p', Lts.exec (step env (capturing cfg i false)) (w.plain i p) (erase i l) =
        some (w'.plain i p') ∧ Tracks (w'.runs i) p' := by
  cases l with
  | monitor | cancel | proc => cases hl
  | main j a =>
    obtain ⟨rfl, ha⟩ : j = i ∧ a.plumbs = true := by simpa [Label.plumbs] using hl
    simp only [step] at h
    split at h
    · cases h
    · obtain ⟨⟨hd, r⟩, hr, h⟩ := Option.map_eq_some_iff.mp h
      cases h
      rw [capturing_self] at hr
      obtain ⟨rfl, p', hT', hcase⟩ := (mainMove_of_step hr).forward ha (hs rfl).1 (hs rfl).2 hT
        fun hb => by rw [(answered_of_reaches hw j).before hb]
      refine ⟨p', ?_, by rw [setRun_runs_self]; exact hT'⟩
      rcases hcase with ⟨he, hplain⟩ | ⟨b, he, hb, hmove⟩
      · simp only [erase, if_true, he, Option.map_none, Option.toList_none, Lts.exec_nil]
        exact congrArg some (plain_setRun_of_eq hplain).symm
      · have hstep : step env (capturing cfg j false) (w.plain j p) (.main j b) =
            some ((World.setRun { w with handle := w.handle } j r).plain j p') := by
          simp only [step, hb, Bool.false_eq_true, false_and, if_false]
          rw [capturing_self, plain_runs_self, plain_handle, hmove.step]
          exact congrArg some (plain_setRun_self w w.handle j r p p')
        simp only [erase, if_true, he, Option.map_some, Option.toList_some, Lts.exec_cons, hstep,
          Option.bind_some, Lts.exec_nil]
  | wait j a =>
    obtain ⟨⟨t, o, x⟩, hx, h⟩ := Option.map_eq_some_iff.mp h
    cases h
    cases a with
    | send =>
      obtain rfl : j = i := by simpa [Label.plumbs] using hl
      cases waitMove_of_step hx with
      | @send res pc =>
        refine ⟨p, ?_, ?_⟩
        · simp only [erase, true_and, true_or, if_true, Lts.exec_nil]
          refine congrArg some (plain_setRun_of_eq ?_).symm
          rfl
        · rw [setRun_runs_self]
          refine ⟨fun hne => absurd rfl hne, fun res' hres => ?_, by simp⟩
          rcases hres with hres | hres
          · cases hres
            rw [hT.same (by simp [pc]) (by simp [pc]), pc]
          · exact hT.heard res' (.inr hres)
    | exit =>
      obtain rfl : j = i := by simpa [Label.plumbs] using hl
      cases waitMove_of_step hx with
      | exit pc =>
        refine ⟨p, ?_, ?_⟩
        · simp only [erase, true_and, or_true, if_true, Lts.exec_nil]
          refine congrArg some (plain_setRun_of_eq ?_).symm
          rfl
        · rw [setRun_runs_self]
          exact ⟨fun _ hne => absurd rfl hne, hT.heard, by simp⟩
    | _ => cases hl
  | drain j s a =>
    obtain ⟨⟨t, o⟩, ho, h⟩ := Option.map_eq_some_iff.mp h
    cases h
    cases a with
    | read => cases hl
    | send =>
      obtain rfl : j = i := by simpa [Label.plumbs] using hl
      cases drainMove_of_step ho with
      | @send bs pc =>
        refine ⟨p, ?_, by rw [setRun_runs_self]; exact hT.frame rfl fun res => id⟩
        simp only [erase, true_and, if_true, Lts.exec_nil]
        refine congrArg some (plain_setRun_of_eq ?_).symm
        -- without capture the thread is back at its next read already
        cases s with
        | stdout =>
          change (w.runs j).output.stdout.pc = _ at pc
          simp [Run.plain, Output.plain, Output.setDrain, DrainPc.plain, pc]
        | stderr =>
          change (w.runs j).output.stderr.pc = _ at pc
          simp [Run.plain, Output.plain, Output.setDrain, DrainPc.plain, pc]

/-- **Each step with capture comes down to at most one step without.** -/
theorem forward_step (hw : Reaches env (capturing cfg i true) tr w) (hT : Tracks (w.runs i) p)
    (hs : Smooth i w l) (h : step env (capturing cfg i true) w l = some w') :
    ∃ p', Lts.exec (step env (capturing cfg i false)) (w.plain i p) (erase i l) =
        some (w'.plain i p') ∧ Tracks (w'.runs i) p' := by
  by_cases hl : l.plumbs i = true
  · exact forward_plumbs hw hl hT hs h
  · rw [Bool.not_eq_true] at hl
    rw [erase_of_not_plumbs hl]
    by_cases hwait : ∃ a, l = .wait i a
    · obtain ⟨a, rfl⟩ := hwait
      obtain ⟨hplain, hT'⟩ := forward_wait (by rintro rfl; simp [Label.plumbs] at hl)
        (by rintro rfl; simp [Label.plumbs] at hl) hT hs h
      exact ⟨_, by rw [Lts.exec_cons, hplain]; rfl, hT'⟩
    · have hwait : ∀ a, l ≠ .wait i a := fun a ha => hwait ⟨a, ha⟩
      have hdrain : ∀ s a, l = .drain i s a →
          ∀ bs, ((w.runs i).output.drain s).pc ≠ .sending bs := by
        rintro s a rfl
        exact not_sending_of_step (by rintro rfl; simp [Label.plumbs] at hl) h
      have hplain : step env (capturing cfg i false) (w.plain i p) l =
          (step env (capturing cfg i true) w l).map (·.plain i p) :=
        step_plain hl hwait hs hdrain
      rw [h] at hplain
      exact ⟨p, by rw [Lts.exec_cons, hplain]; rfl, tracks_step hl hwait h hT⟩

theorem init_plain : (World.init ι env).plain i .idle = World.init ι env := by
  have hinit : (Run.init env).plain .idle = Run.init env := rfl
  simp [World.plain, World.setRun, World.init, hinit]

theorem smooth_erase (hs : Smooth i w l) :
    Lts.Along (step env cfg) (Smooth i) (w.plain i p) (erase i l) := by
  have hone : ∀ m, erase i l = [m] → Smooth i (w.plain i p) m →
      Lts.Along (step env cfg) (Smooth i) (w.plain i p) (erase i l) := fun m hm hsm => by
    rw [hm]
    exact ⟨hsm, fun _ _ => trivial⟩
  cases l with
  | main j a =>
    by_cases hj : j = i
    · subst hj
      cases he : a.erased with
      | none => simp [erase, he, Lts.Along]
      | some b =>
        refine hone (.main j b) (by simp [erase, he]) fun _ => ?_
        have := hs rfl
        cases a <;> cases he <;> simp_all
    · exact hone (.main j a) (by simp [erase, hj]) fun h => absurd h hj
  | wait j a =>
    by_cases ha : j = i ∧ (a = .send ∨ a = .exit)
    · simp [erase, ha, Lts.Along]
    · exact hone (.wait j a) (by simp only [erase, if_neg ha]) hs
  | drain j s a =>
    by_cases ha : j = i ∧ a = .send
    · simp [erase, ha, Lts.Along]
    · exact hone (.drain j s a) (by simp only [erase, if_neg ha]) hs
  | cancel k a =>
    refine hone (.cancel k a) rfl ?_
    cases a with
    | swap =>
      intro hk
      rw [plain_runs_self]
      simp only [Run.plain]
      cases (w.runs i).main <;> simp [MainPc.plain]
    | _ => trivial
  | monitor | proc => exact hone _ rfl trivial

/-- **A run with capture comes down to a run without.** -/
theorem forward_of_reaches (h : Reaches env (capturing cfg i true) tr w)
    (hs : Lts.Along (step env (capturing cfg i true)) (Smooth i) (World.init ι env) tr) :
    ∃ p, Reaches env (capturing cfg i false) (tr.flatMap (erase i)) (w.plain i p) ∧
      Lts.Along (step env (capturing cfg i false)) (Smooth i) (World.init ι env)
        (tr.flatMap (erase i)) := by
  obtain ⟨v, hv, halong, -, p, rfl, -⟩ := Lts.exec_simulation
    (step env (capturing cfg i false)) (Smooth i)
    (fun w v => (∃ tr, Reaches env (capturing cfg i true) tr w) ∧
      ∃ p, v = w.plain i p ∧ Tracks (w.runs i) p)
    (erase i) (t := World.init ι env)
    (by
      rintro w l w' _ ⟨⟨tr, hw⟩, p, rfl, hT⟩ hl hstep
      obtain ⟨p', hexec, hT'⟩ := forward_step hw hT hl hstep
      exact ⟨_, hexec, smooth_erase hl, ⟨_, Lts.exec_concat_eq_some.mpr ⟨w, hw, hstep⟩⟩, p', rfl,
        hT'⟩)
    ⟨⟨[], rfl⟩, .idle, init_plain.symm, fun _ _ => rfl, by simp [World.init, Run.init],
      by simp [World.init, Run.init]⟩ h hs
  exact ⟨p, hv, halong⟩

end Runs

end AerCore
