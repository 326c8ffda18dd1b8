import AerCore.Handle

/-!
# Runs without a handle are on their own

`Task::run` makes everything it needs: the flag `timed_out`, the channels, the threads and
the tree belong to one call.  A call that was given a cancel handle shares that handle with
others; a call that was not shares nothing, so it takes the steps it would take alone,
whatever the other runs of the program and the callers of `cancel()` do, and several such
calls may be shuffled in any way.

## Main definitions

* `RunAct`, `runStep` — one run without a handle, on its own.
* `Label.act?` — what a step of the system does in a run.

## Main results

* `run_is_isolated` — **a run without a handle does what it can do alone**, next to any other
  runs and cancelling threads, and all of that.
* `runs_are_independent` — **runs without a handle are shuffles of runs alone**.
-/

namespace AerCore

variable {ι : Type*}

/-! ### One run on its own -/

/-- The steps of the threads and processes of one run. -/
inductive RunAct
  | main (a : MainAct)
  | monitor (a : MonitorAct)
  | wait (a : WaitAct)
  | drain (s : Stream) (a : DrainAct)
  | proc (a : ProcAct)
  deriving DecidableEq

/-- One step of a run without a handle. -/
def runStep (env : Env) (c : RunConfig) (r : Run) : RunAct → Option Run
  | .main a => (runImplStep env c () .new r a).map Prod.snd
  | .monitor a => monitorStep env r a
  | .wait a =>
      (waitStep env c.captureOutput r.tree r.output r.waiter a).map fun (t, o, x) =>
        { r with tree := t, output := o, waiter := x }
  | .drain s a =>
      (drainStep c.captureOutput s r.tree r.output a).map fun (t, o) =>
        { r with tree := t, output := o }
  | .proc a => (procStep env r.tree a).map fun t => { r with tree := t }

/-- The step as one of run `i` of a system. -/
def RunAct.label (i : ι) : RunAct → Label ι
  | .main a => .main i a
  | .monitor a => .monitor i a
  | .wait a => .wait i a
  | .drain s a => .drain i s a
  | .proc a => .proc i a

/-- What a step of the system does in run `i`; a call of `cancel()` is made by no run. -/
def Label.act? [DecidableEq ι] (i : ι) : Label ι → Option RunAct
  | .main j a => if j = i then some (.main a) else none
  | .monitor j a => if j = i then some (.monitor a) else none
  | .wait j a => if j = i then some (.wait a) else none
  | .drain j s a => if j = i then some (.drain s a) else none
  | .proc j a => if j = i then some (.proc a) else none
  | .cancel _ _ => none

section Alone

variable {env : Env} {c : RunConfig} {i : ι} {hd hd' : CancelHandle ι} {r r' : Run}

/-- Away from the blocks that use the handle, the run thread neither reads nor writes it. -/
theorem MainMove.alone {κ : Type*} {a : MainAct} (h : MainMove env c i hd r a hd' r')
    (hplain : c.cancel = false) (hoff : r.main.onHandle = false) (j : κ) (hd₁ : CancelHandle κ) :
    hd' = hd ∧ MainMove env c j hd₁ r a hd₁ r' := by
  cases h with
  | wire pc | loadCancelled pc | loadFired pc | probeMore pc | probeAlive pc | probeDead pc
  | fire pc | killMore pc | killDone pc | clear pc =>
    rw [pc] at hoff
    cases hoff
  | loadKillFired pc =>
    have hread : MainMove env c j hd₁ r (.loadKillFired (c.cancel && hd₁.killFired)) hd₁ _ :=
      .loadKillFired pc
    refine ⟨rfl, ?_⟩
    simpa only [hplain, Bool.false_and] using hread
  | _ => exact ⟨rfl, by constructor <;> assumption⟩

theorem runStep_main {a : MainAct} :
    runStep env c r (.main a) = some r' ↔ ∃ hd, MainMove env c () .new r a hd r' := by
  simp only [runStep, Option.map_eq_some_iff, Prod.exists]
  constructor
  · rintro ⟨hd, r'', h, rfl⟩
    exact ⟨hd, mainMove_of_step h⟩
  · rintro ⟨hd, h⟩
    exact ⟨hd, r', h.step, rfl⟩

/-- The run thread takes the same steps on any handle, and leaves it as it is. -/
theorem runImplStep_eq {a : MainAct} (hplain : c.cancel = false) (hoff : r.main.onHandle = false) :
    runImplStep env c i hd r a = (runStep env c r (.main a)).map fun r' => (hd, r') := by
  ext ⟨hd', r'⟩
  simp only [Option.map_eq_some_iff, Prod.mk.injEq]
  constructor
  · intro h
    obtain ⟨rfl, halone⟩ := (mainMove_of_step h).alone hplain hoff () .new
    exact ⟨r', runStep_main.mpr ⟨_, halone⟩, rfl, rfl⟩
  · rintro ⟨r'', h, rfl, rfl⟩
    obtain ⟨hd₁, hmove⟩ := runStep_main.mp h
    exact (hmove.alone hplain hoff i hd).2.step

/-- A run without a handle does not come to the blocks that use one. -/
theorem onHandle_of_runStep {a : RunAct} (hplain : c.cancel = false)
    (hoff : r.main.onHandle = false) (h : runStep env c r a = some r') :
    r'.main.onHandle = false := by
  cases a with
  | main a =>
    obtain ⟨hd, hmove⟩ := runStep_main.mp h
    rw [Bool.eq_false_iff]
    intro hon
    have hc := hmove.edge.onHandle (fun hm => by rw [hoff] at hm; cases hm) hon
    rw [hplain] at hc
    cases hc
  | monitor a =>
    rw [(monitorMove_of_step h).main_eq]
    exact hoff
  | wait a | drain s a | proc a =>
    obtain ⟨x, -, rfl⟩ := Option.map_eq_some_iff.mp h
    exact hoff

end Alone

/-! ### Isolation -/

section Isolation

variable [DecidableEq ι] {env : Env} {cfg : ι → RunConfig} {tr : List (Label ι)} {w w' : World ι}
  {l : Label ι} {i : ι} {r r' : Run} {acts : List RunAct}

/-- A run without a handle never comes to the blocks that use one. -/
theorem onHandle_of_plain (h : Reaches env cfg tr w) (hplain : (cfg i).cancel = false) :
    (w.runs i).main.onHandle = false := by
  rw [Bool.eq_false_iff]
  intro hon
  rw [cancel_of_onHandle h hon] at hplain
  cases hplain

/-- What a step of the system does in the run is a step of the run alone. -/
theorem exec_runStep_of_step (h : Reaches env cfg tr w) (hplain : (cfg i).cancel = false)
    (hstep : step env cfg w l = some w') :
    Lts.exec (runStep env (cfg i)) (w.runs i) (l.act? i).toList = some (w'.runs i) := by
  have hmove := runMove_of_step hstep i
  generalize w'.runs i = r' at hmove ⊢
  cases hmove with
  | main h' =>
    obtain ⟨-, halone⟩ := h'.alone hplain (onHandle_of_plain h hplain) () .new
    simpa [Label.act?] using runStep_main.mpr ⟨_, halone⟩
  | monitor h' => simp [Label.act?, runStep, h'.step]
  | wait h' => simp [Label.act?, runStep, h'.step]
  | drain h' => simp [Label.act?, runStep, h'.step]
  | proc h' => simp [Label.act?, runStep, h']
  | @cancelKill k a p t p' h' =>
    -- the slot never holds a run without a handle
    have hkill : ∃ p, w.callers k = .kill i p := by
      cases cancelMove_of_step (by simpa [step] using hstep) with
      | killMore pc | killDone pc => exact ⟨_, pc⟩
    obtain ⟨p, pc⟩ := hkill
    have hslot := (guarded_of_reaches h).slot k i (by rw [pc]; rfl)
    rw [cancel_of_slot h hslot] at hplain
    cases hplain
  | other hl =>
    have hnone : l.act? i = none := by
      cases l <;> simp_all [Label.touches, Label.act?]
    simp [hnone]

theorem exec_runStep_of_reaches (h : Reaches env cfg tr w) (hplain : (cfg i).cancel = false) :
    Lts.exec (runStep env (cfg i)) (Run.init env) (tr.filterMap (Label.act? i)) =
      some (w.runs i) := by
  refine Lts.exec_invariant (P := fun tr w => Lts.exec (runStep env (cfg i)) (Run.init env)
    (tr.filterMap (Label.act? i)) = some (w.runs i)) rfl ?_ h
  intro tr w l w' hw ih hstep
  have hone := exec_runStep_of_step hw hplain hstep
  rw [List.filterMap_append]
  refine Lts.exec_append_eq_some.mpr ⟨w.runs i, ih, ?_⟩
  cases ha : l.act? i with
  | none => simpa [ha] using hone
  | some a => simpa [ha] using hone

/-- The threads of a run without a handle take the steps of the run alone, while its callback
is not inside `cancel()`. -/
theorem step_label_eq {a : RunAct} (hplain : (cfg i).cancel = false)
    (hoff : (w.runs i).main.onHandle = false) (hidle : w.callers (.callback i) = .idle) :
    step env cfg w (a.label i) = (runStep env (cfg i) (w.runs i) a).map (w.setRun i) := by
  cases a with
  | main a =>
    simp only [RunAct.label, step, hidle, ne_eq, not_true_eq_false, and_false, if_false,
      runImplStep_eq hplain hoff, Option.map_map]
    rfl
  | monitor a => rfl
  | wait a | drain s a =>
    simp only [RunAct.label, step, runStep, Option.map_map]
    rfl
  | proc a =>
    simp only [RunAct.label, step, runStep, Option.map_map]
    rfl

/-- A run alone is one of the system in which nobody else moves. -/
theorem exec_label (hplain : (cfg i).cancel = false) (hoff : (w.runs i).main.onHandle = false)
    (hidle : w.callers (.callback i) = .idle)
    (h : Lts.exec (runStep env (cfg i)) (w.runs i) acts = some r) :
    Lts.exec (step env cfg) w (acts.map (RunAct.label i)) = some (w.setRun i r) := by
  induction acts generalizing w with
  | nil =>
    obtain rfl : w.runs i = r := by simpa using h
    simp [World.setRun]
  | cons a acts ih =>
    obtain ⟨r₁, hr₁, h⟩ := Option.bind_eq_some_iff.mp h
    have hstep : step env cfg w (a.label i) = some (w.setRun i r₁) := by
      rw [step_label_eq hplain hoff hidle, hr₁, Option.map_some]
    have hoff₁ : ((w.setRun i r₁).runs i).main.onHandle = false := by
      rw [setRun_runs_self]
      exact onHandle_of_runStep hplain hoff hr₁
    have hrest := ih (w := w.setRun i r₁) hoff₁ hidle (by simpa using h)
    refine Lts.exec_of_step hstep ?_
    simpa [World.setRun] using hrest

/-- **A run without a handle does what it can do alone**, step by step, and all of that,
whatever other runs there are, and whoever calls `cancel()`. -/
theorem run_is_isolated (hplain : (cfg i).cancel = false) :
    (∀ tr w, Reaches env cfg tr w → Lts.exec (runStep env (cfg i)) (Run.init env)
        (tr.filterMap (Label.act? i)) = some (w.runs i)) ∧
      ∀ acts r, Lts.exec (runStep env (cfg i)) (Run.init env) acts = some r →
        ∃ w, Reaches env cfg (acts.map (RunAct.label i)) w ∧ w.runs i = r := by
  refine ⟨fun tr w h => exec_runStep_of_reaches h hplain, fun acts r h => ?_⟩
  exact ⟨(World.init ι env).setRun i r, exec_label hplain rfl rfl h, setRun_runs_self _ _ _⟩

/-! ### Shuffles -/

/-- A run of runs without a handle is one of their product. -/
theorem exec_labels_iff (hplain : ∀ i, (cfg i).cancel = false)
    (hoff : ∀ i, (w.runs i).main.onHandle = false) (hidle : ∀ k, w.callers k = .idle)
    {tr : List (ι × RunAct)} :
    Lts.exec (step env cfg) w (tr.map fun l => l.2.label l.1) = some w' ↔
      (w'.handle = w.handle ∧ w'.callers = w.callers) ∧
        Lts.exec (Lts.product fun i => runStep env (cfg i)) w.runs tr = some w'.runs := by
  induction tr generalizing w with
  | nil =>
    constructor
    · rintro ⟨⟩
      exact ⟨⟨rfl, rfl⟩, rfl⟩
    · rintro ⟨⟨hhandle, hcallers⟩, hruns⟩
      have hruns : w.runs = w'.runs := by simpa using hruns
      cases w
      cases w'
      simp_all
  | cons l tr ih =>
    obtain ⟨i, a⟩ := l
    simp only [List.map_cons, Lts.exec_cons, step_label_eq (hplain i) (hoff i) (hidle _)]
    cases hr : runStep env (cfg i) (w.runs i) a with
    | none => simp [Lts.product, hr]
    | some r =>
      have hoff₁ : ∀ j, ((w.setRun i r).runs j).main.onHandle = false := fun j => by
        by_cases hj : j = i
        · subst hj
          rw [setRun_runs_self]
          exact onHandle_of_runStep (hplain j) (hoff j) hr
        · rw [setRun_runs_ne _ _ hj]
          exact hoff j
      have hnext := ih (w := w.setRun i r) hoff₁ hidle
      simpa [Lts.product, hr, World.setRun] using hnext

/-- **Runs without a handle are shuffles of runs alone.** -/
theorem runs_are_independent (hplain : ∀ i, (cfg i).cancel = false) (tr : List (ι × RunAct)) :
    Reaches env cfg (tr.map fun l => l.2.label l.1) w ↔
      (w.handle = .new ∧ ∀ k, w.callers k = .idle) ∧
        ∀ i, Lts.exec (runStep env (cfg i)) (Run.init env) (Lts.component i tr) =
          some (w.runs i) := by
  have hiff : Reaches env cfg (tr.map fun l => l.2.label l.1) w ↔ _ :=
    exec_labels_iff hplain (fun _ => rfl) fun _ => rfl
  rw [hiff, Lts.exec_product_iff, funext_iff]
  rfl

end Isolation

/-! ### Two runs, one of them cancelled -/

/-- The first run has no handle; the second is cancelled before it has spawned. -/
def twoConfigs : Bool → RunConfig
  | false => ⟨none, false, false⟩
  | true => ⟨none, false, true⟩

/-- The two runs and a cancelling thread take turns. -/
def mixedRun : List (Label Bool) :=
  [.cancel (.thread 0) (.swap false), .main false (.spawn (.command (.ok 7))),
    .main true (.spawn (.command (.ok 8))), .main false .started, .main true .started,
    .main false .startedReturns, .main true .startedReturns, .main true .wire,
    .main false (.startMonitor true), .main true (.loadCancelled true), .main false .callWait]

theorem mixedRun_is_isolated :
    ∃ w, Reaches Env.posix twoConfigs mixedRun w ∧
      Lts.exec (runStep Env.posix ⟨none, false, false⟩) (Run.init Env.posix)
        [.main (.spawn (.command (.ok 7))), .main .started, .main .startedReturns,
          .main (.startMonitor true), .main .callWait] = some (w.runs false) := by
  obtain ⟨w, hw, -⟩ : ∃ w, Reaches Env.posix twoConfigs mixedRun w ∧
      (w.runs false).main = .inWait := Lts.exists_exec_of_any (by decide +kernel)
  exact ⟨w, hw, (run_is_isolated (i := false) (by decide)).1 mixedRun w hw⟩

/-- Two runs without a handle, step by step in turns. -/
def turns : List (Bool × RunAct) :=
  [(false, .main (.spawn (.command (.ok 7)))), (true, .main (.spawn (.command (.ok 8)))),
    (false, .main .started), (true, .main .started), (true, .proc (.rootExit (some 3))),
    (false, .main .startedPanics), (true, .main .startedReturns)]

theorem turns_are_independent :
    ∃ w, Reaches Env.posix (fun _ => ⟨none, false, false⟩) (turns.map fun l => l.2.label l.1) w ∧
      Lts.exec (runStep Env.posix ⟨none, false, false⟩) (Run.init Env.posix)
        [.main (.spawn (.command (.ok 8))), .main .started, .proc (.rootExit (some 3)),
          .main .startedReturns] = some (w.runs true) := by
  obtain ⟨w, hw, -⟩ : ∃ w, Reaches Env.posix (fun _ => ⟨none, false, false⟩)
      (turns.map fun l => l.2.label l.1) w ∧ (w.runs true).main = .startMonitor :=
    Lts.exists_exec_of_any (by decide +kernel)
  exact ⟨w, hw, ((runs_are_independent (fun _ => rfl) turns).mp hw).2 true⟩

end AerCore
