import AerCore.Expand
import AerCore.Orphan
import Mathlib.Data.Set.Insert

/-!
# Output capture and the outcome of a run

What can come out of a run: how it ends and which lifecycle events it has emitted, over all
schedules with a given behaviour of processes, system and threads.  Whatever comes out with
capture comes out without.  The other way round holds as long as `wait` does not come back
before its drain threads are done: on Unix it never does, on Windows it does when `child.wait()`
fails.  Then the job is not terminated, and with capture the pump loop waits for whatever
process still holds a pipe.

## Main definitions

* `Outcomes env cfg i capture B` — what can come out of run `i`, over the behaviours in `B`.
* `WaitsAlike env i beh` — `wait` leaves no drain thread of run `i` behind.

## Main results

* `readToEnd_of_reaches` — a run with capture is done reading when it takes the answer.
* `doneOnReturn_of_waitsAlike` — so is a run without, where `wait` leaves nothing behind.
* `capture_is_transparent_iff` — **when output capture changes nothing that a caller sees.**
* `stalled_of_reaches` — a captured run on Windows that never reports a failed `child.wait()`.
-/

namespace AerCore

variable {ι : Type*}

/-! ### Behaviours and outcomes -/

/-- What the run gives its caller: how it ends, and the events but for the chunks. -/
abbrev Seen := Outcome × List Event

/-- A read that ends the drain thread. -/
def ReadResult.ends : ReadResult → Bool
  | .eof | .error _ => true
  | .bytes _ | .interrupted => false

section Runs

variable [DecidableEq ι]

/-- What run `i` can give its caller, with capture or without, where the processes, the system
and the other threads behave as `B` says.  A behaviour is a run but for the steps that are there
only with capture. -/
def Outcomes (env : Env) (cfg : ι → RunConfig) (i : ι) (capture : Bool)
    (B : Set (List (Label ι))) : Set Seen :=
  {seen | ∃ tr w, Reaches env (capturing cfg i capture) tr w ∧
    Lts.Along (step env (capturing cfg i capture)) (Smooth i) (World.init ι env) tr ∧
    tr.flatMap (erase i) ∈ B ∧ (w.runs i).main = .finished seen.1 ∧
    (w.runs i).events.filter Event.isLifecycle = seen.2}

/-- Both drain threads of run `i` have come to the end of their pipes when the answer of `wait`
is taken. -/
def ReadToEnd (i : ι) (beh : List (Label ι)) : Prop :=
  ∀ pre post, beh = pre ++ .main i .waitReturned :: post →
    ∀ s, ∃ x : ReadResult, x.ends = true ∧ .drain i s (.read x) ∈ pre

/-- `child.wait()` does not fail in run `i`. -/
def ChildWaitOk (i : ι) (beh : List (Label ι)) : Prop :=
  ∀ e, .wait i (.childWait (.error e)) ∉ beh

/-- The call of `wait` leaves no drain thread behind. -/
def WaitsAlike (env : Env) (i : ι) (beh : List (Label ι)) : Prop :=
  env.platform = .unix ∨ ChildWaitOk i beh ∨ ReadToEnd i beh

/-- The behaviour is one of a whole run without capture. -/
def Completes (env : Env) (cfg : ι → RunConfig) (i : ι) (beh : List (Label ι)) : Prop :=
  (Outcomes env cfg i false {beh}).Nonempty

variable {env : Env} {cfg : ι → RunConfig} {i : ι} {tr : List (Label ι)} {w : World ι}

/-! ### When the drain threads are done -/

/-- A drain thread that has ended does not start again. -/
theorem done_move {c : RunConfig} {hd : CancelHandle ι} {r r' : Run}
    {l : Label ι} (h : RunMove env c i hd r l r') (ha : Answered env r) {s : Stream}
    (hs : (r.output.drain s).pc = .done) : (r'.output.drain s).pc = .done := by
  cases h with
  | main h => rw [h.drain_eq]; exact hs
  | monitor h => cases h <;> exact hs
  | wait h =>
    have hw := ha.wait
    cases h with
    | startOut pc =>
      rw [pc] at hw
      cases s with
      | stdout => exact absurd (hw.1.symm.trans hs) (by simp)
      | stderr => exact hs
    | startErr pc =>
      rw [pc] at hw
      cases s with
      | stdout => exact hs
      | stderr => exact absurd (Eq.trans (Eq.symm hw) hs) (by simp)
    | startOutFails | startErrFails => cases s <;> exact hs
    | _ => exact hs
  | drain h => exact (congrArg Drain.pc (h.drain_done hs)).trans hs
  | proc | cancelKill | other => exact hs

/-- The end of a pipe is the end of its drain thread. -/
theorem done_of_ends (h : Reaches env cfg tr w) {s : Stream} {x : ReadResult}
    (hx : x.ends = true) (hmem : .drain i s (.read x) ∈ tr) :
    ((w.runs i).output.drain s).pc = .done := by
  refine Lts.exec_invariant (P := fun tr w => .drain i s (.read x) ∈ tr →
    ((w.runs i).output.drain s).pc = .done) (by simp) ?_ h hmem
  intro tr w l w' hw ih hstep hmem
  have hmove := runMove_of_step hstep i
  rcases List.mem_append.mp hmem with hmem | hmem
  · exact done_move hmove (answered_of_reaches hw i) (ih hmem)
  · obtain rfl := List.mem_singleton.mp hmem
    obtain ⟨⟨t, o⟩, ho, h⟩ := Option.map_eq_some_iff.mp hstep
    cases h
    rw [setRun_runs_self]
    cases drainMove_of_step ho with
    | readBytes | readInterrupted => cases hx
    | readEof | readError => simp

/-- `wait` does not panic where its drain threads can be started. -/
theorem not_panicked_of_reaches (h : Reaches env cfg tr w)
    (hs : Lts.Along (step env cfg) (Smooth i) (World.init ι env) tr) :
    (w.runs i).waiter.pc ≠ .panicked := by
  refine Lts.exec_invariant_along (P := fun _ w => (w.runs i).waiter.pc ≠ .panicked)
    (by simp [World.init, Run.init]) ?_ h hs
  intro tr w l w' hw ih hsmooth hstep
  have hmove := runMove_of_step hstep i
  rcases hmove.waiter_pc with hpc | hpc | ⟨a, t, o, rfl, hwait⟩
  · rwa [hpc]
  · simp [hpc]
  · obtain ⟨hout, herr⟩ := hsmooth rfl
    generalize (w'.runs i).waiter = x at hwait
    cases hwait with
    | startOutFails => exact absurd rfl hout
    | startErrFails => exact absurd rfl herr
    | childWait | childWaitFails => cases env.platform <;> simp [WaitPc.afterChildWait]
    | _ => simp

/-- `wait` has an error to report. -/
def WaitPc.erred : WaitPc → Bool
  | .killTree (.error _) | .joinOut (.error _) | .joinErr (.error _) | .returned (.error _) => true
  | _ => false

omit [DecidableEq ι] in
/-- The error is that of `child.wait()`. -/
theorem WaitMove.erred {capture : Bool} {t t' : Tree} {o o' : Output} {x x' : Waiter}
    {a : WaitAct} (h : WaitMove env capture t o x a t' o' x') (hx : x'.pc.erred = true) :
    x.pc.erred = true ∨ ∃ e, a = .childWait (.error e) := by
  cases h with
  | childWait => cases hp : env.platform <;> simp [WaitPc.afterChildWait, hp, WaitPc.erred] at hx
  | childWaitFails => exact .inr ⟨_, rfl⟩
  | @killTree res _ _ pc | @joinOut res pc | @joinErr res pc =>
    cases res with
    | ok => cases hx
    | error e => rw [pc]; exact .inl rfl
  | _ => cases hx

theorem childWait_failed_of_reaches (h : Reaches env cfg tr w)
    (hpc : (w.runs i).waiter.pc.erred = true) : ∃ e, .wait i (.childWait (.error e)) ∈ tr := by
  refine Lts.exec_invariant (P := fun tr w => (w.runs i).waiter.pc.erred = true →
    ∃ e, .wait i (.childWait (.error e)) ∈ tr) (by simp [World.init, Run.init, WaitPc.erred]) ?_ h
    hpc
  intro tr w l w' hw ih hstep hpc
  have hmove := runMove_of_step hstep i
  have hold : (w.runs i).waiter.pc.erred = true →
      ∃ e, .wait i (.childWait (.error e)) ∈ tr ++ [l] := fun h =>
    (ih h).imp fun e he => List.mem_append_left _ he
  rcases hmove.waiter_pc with hsame | hstart | ⟨a, t, o, rfl, hwait⟩
  · exact hold (hsame ▸ hpc)
  · rw [hstart] at hpc
    cases hpc
  · rcases hwait.erred hpc with herred | ⟨e, rfl⟩
    · exact hold herred
    · exact ⟨e, by simp⟩

/-! ### Behaviours of runs with capture and without -/

/-- A step that is there with capture and without stands in the behaviour of a run. -/
theorem eq_of_mem_erase {l m : Label ι} (hl : l.plumbs i = false) (h : l ∈ erase i m) :
    m = l := by
  by_cases hm : m.plumbs i = true
  · exfalso
    cases m with
    | monitor | cancel | proc => cases hm
    | main j a =>
      obtain ⟨rfl, ha⟩ : j = i ∧ a.plumbs = true := by simpa [Label.plumbs] using hm
      cases a <;> simp_all [erase, MainAct.erased, MainAct.plumbs, Label.plumbs]
    | wait j a =>
      cases a <;> simp_all [erase, Label.plumbs]
    | drain j s a =>
      cases a <;> simp_all [erase, Label.plumbs]
  · rw [Bool.not_eq_true] at hm
    rw [erase_of_not_plumbs hm] at h
    exact (List.mem_singleton.mp h).symm

theorem mem_flatMap_erase {l : Label ι} (hl : l.plumbs i = false) :
    l ∈ tr.flatMap (erase i) ↔ l ∈ tr := by
  rw [List.mem_flatMap]
  constructor
  · rintro ⟨m, hm, h⟩
    rwa [← eq_of_mem_erase hl h]
  · intro h
    exact ⟨l, h, by rw [erase_of_not_plumbs hl]; simp⟩

theorem erase_expand (l : Label ι) : (expand i l).flatMap (erase i) = erase i l := by
  unfold expand
  split
  · split <;> simp_all [erase, MainAct.erased]
  · split <;> simp_all [erase, MainAct.erased]
  · split <;> simp_all [erase, MainAct.erased]
  · simp

theorem erase_erase (l : Label ι) : (erase i l).flatMap (erase i) = erase i l := by
  cases l with
  | main j a =>
    by_cases hj : j = i
    · subst hj
      cases a <;> simp [erase, MainAct.erased]
    · simp [erase, hj]
  | wait j a => simp only [erase]; split <;> simp_all [erase]
  | drain j s a => simp only [erase]; split <;> simp_all [erase]
  | _ => rfl

/-- **Where `wait` leaves no drain thread behind, a run without capture is done reading when it
takes the answer.** -/
theorem doneOnReturn_of_waitsAlike (h : Reaches env (capturing cfg i false) tr w)
    (hs : Lts.Along (step env (capturing cfg i false)) (Smooth i) (World.init ι env) tr)
    (hbeh : WaitsAlike env i (tr.flatMap (erase i))) :
    Lts.Along (step env (capturing cfg i false)) (DoneOnReturn i) (World.init ι env) tr := by
  refine Lts.along_of_forall fun pre l post v htr hv hl => ?_
  subst htr hl
  obtain ⟨v', hv', hpost⟩ := Lts.exec_append_eq_some.mp h
  obtain rfl : v = v' := by rw [hv] at hv'; exact Option.some.inj hv'
  have hpanicked := not_panicked_of_reaches hv ((Lts.along_append hv).mp hs).1
  obtain ⟨u, hu, -⟩ := Option.bind_eq_some_iff.mp hpost
  obtain ⟨⟨hd, r⟩, hm, -⟩ := Option.map_eq_some_iff.mp hu
  cases mainMove_of_step hm with
  | waitPanicked _ panicked => exact absurd panicked hpanicked
  | @waitReturned res pc returned =>
    have hanswer := (answered_of_reaches hv i).wait
    rw [returned] at hanswer
    rcases hbeh with hunix | hok | hread
    · have hdrained := drained_of_reaches hv hunix i
      rw [returned] at hdrained
      rintro (_ | _)
      · exact hdrained.1
      · exact hdrained.2
    · cases res with
      | ok code =>
        rintro (_ | _)
        · exact hanswer.2.2.1
        · exact hanswer.2.2.2
      | error e =>
        obtain ⟨e', he'⟩ := childWait_failed_of_reaches hv (by rw [returned]; rfl)
        refine absurd ?_ (hok e')
        rw [mem_flatMap_erase (by rfl)]
        exact List.mem_append_left _ he'
    · intro s
      obtain ⟨x, hx, hmem⟩ := hread (pre.flatMap (erase i)) (post.flatMap (erase i))
        (by simp [erase, MainAct.erased]) s
      exact done_of_ends hv hx ((mem_flatMap_erase (by rfl)).mp hmem)

omit [DecidableEq ι] in
@[simp] theorem MainPc.plain_eq_finished {m : MainPc} {o : Outcome} :
    m.plain = .finished o ↔ m = .finished o := by
  cases m <;> simp [MainPc.plain]

/-- The answer of `wait` is taken by the step that joins the wait thread, or by the return of
the call. -/
theorem answer_of_erase {l : Label ι} (h : .main i .waitReturned ∈ erase i l) :
    l = .main i .joinWait ∨ l = .main i .waitReturned := by
  cases l with
  | main j a =>
    by_cases hj : j = i
    · subst hj
      cases a <;> simp_all [erase, MainAct.erased]
    · simp only [erase, if_neg hj, List.mem_singleton] at h
      exact .inr h.symm
  | wait j a =>
    simp only [erase] at h
    split at h <;> simp at h
  | drain j s a =>
    simp only [erase] at h
    split at h <;> simp at h
  | _ => simp [erase] at h

/-- A run with capture does not call `wait` on its own thread. -/
theorem no_waitReturned_of_capture {w' : World ι} (h : Reaches env (capturing cfg i true) tr w)
    (hstep : step env (capturing cfg i true) w (.main i .waitReturned) = some w') : False := by
  obtain ⟨⟨hd, r⟩, hm, -⟩ := Option.map_eq_some_iff.mp hstep
  have hpath := (lifecycle_of_reaches h i).path false
  cases mainMove_of_step hm with
  | waitReturned pc | waitPanicked pc =>
    rw [pc, capturing_self] at hpath
    cases hpath rfl

theorem not_interrupted_of_mem {s : Stream} {x : ReadResult} (h : Reaches env cfg tr w)
    (hs : Lts.Along (step env cfg) (Smooth i) (World.init ι env) tr)
    (hmem : .drain i s (.read x) ∈ tr) : x ≠ .interrupted := by
  obtain ⟨tr₁, tr₂, w₁, w₂, rfl, h₁, -, -⟩ := Lts.exec_of_mem h hmem
  have hsmooth := ((Lts.along_append h₁).mp hs).2.1
  rintro rfl
  exact hsmooth rfl rfl

/-- **A run with capture is done reading when it takes the answer of `wait`.** -/
theorem readToEnd_of_reaches (h : Reaches env (capturing cfg i true) tr w)
    (hs : Lts.Along (step env (capturing cfg i true)) (Smooth i) (World.init ι env) tr) :
    ReadToEnd i (tr.flatMap (erase i)) := by
  intro pre post hbeh s
  obtain ⟨tr₁, l, tr₂, rfl, hl, hpre⟩ := Lts.of_flatMap_eq_append_cons hbeh
  obtain ⟨v, hv, hrest⟩ := Lts.exec_append_eq_some.mp h
  obtain ⟨u, hu, -⟩ := Option.bind_eq_some_iff.mp hrest
  obtain rfl : l = .main i .joinWait :=
    (answer_of_erase hl).resolve_right fun hl => no_waitReturned_of_capture hv (hl ▸ hu)
  obtain ⟨⟨hd, r⟩, hm, -⟩ := Option.map_eq_some_iff.mp hu
  cases mainMove_of_step hm with
  | joinWait pc ended =>
    have hc := captureAt_of_reaches hv (i := i) (by simp)
    rw [pc] at hc
    obtain ⟨-, -, -, hend⟩ := hc.2 s
    obtain ⟨x, hx, hsub⟩ := hend.resolve_left (by simp [ended])
    have hmem : .drain i s (.read x) ∈ tr₁ := hsub.subset (by simp)
    refine ⟨x, ?_, hpre _ ((mem_flatMap_erase (by rfl)).mpr hmem)⟩
    -- a read that ends a captured stream otherwise is an interrupted one
    have hint := not_interrupted_of_mem hv ((Lts.along_append hv).mp hs).1 hmem
    cases x with
    | bytes => cases hx
    | interrupted => exact absurd rfl hint
    | eof | error => rfl

/-- **Whatever comes out of a run with capture comes out of one without.** -/
theorem outcomes_capture_subset (B : Set (List (Label ι))) :
    Outcomes env cfg i true B ⊆ Outcomes env cfg i false B := by
  rintro ⟨o, es⟩ ⟨tr, w, hw, hs, hB, hmain, hevents⟩
  obtain ⟨p, hw', hs'⟩ := forward_of_reaches hw hs
  refine ⟨tr.flatMap (erase i), w.plain i p, hw', hs', ?_, ?_, ?_⟩
  · rw [List.flatMap_assoc]
    simpa only [erase_erase] using hB
  · simp only at hmain
    simp [Run.plain, hmain, MainPc.plain]
  · simp only at hevents
    simp [Run.plain, ← hevents]

/-- **Where `wait` leaves no drain thread behind, whatever comes out of a run without capture
comes out of one with it.** -/
theorem outcomes_plain_subset {B : Set (List (Label ι))}
    (hB : ∀ beh ∈ B, Completes env cfg i beh → WaitsAlike env i beh) :
    Outcomes env cfg i false B ⊆ Outcomes env cfg i true B := by
  rintro ⟨o, es⟩ ⟨tr, v, hv, hs, hmem, hmain, hevents⟩
  have hbeh := hB _ hmem ⟨(o, es), tr, v, hv, hs, rfl, hmain, hevents⟩
  obtain ⟨w, p, hw, hs', rfl⟩ :=
    backward_of_reaches hv hs (doneOnReturn_of_waitsAlike hv hs hbeh)
  refine ⟨tr.flatMap (expand i), w, hw, hs', ?_, ?_, ?_⟩
  · rw [List.flatMap_assoc]
    simpa only [erase_expand] using hmem
  · simpa [Run.plain] using hmain
  · simpa [Run.plain] using hevents

/-- **Output capture changes nothing a caller sees, exactly where `wait` leaves no drain thread
behind.** -/
theorem capture_is_transparent_iff (B : Set (List (Label ι))) :
    (∀ B' ⊆ B, Outcomes env cfg i true B' = Outcomes env cfg i false B') ↔
      ∀ beh ∈ B, Completes env cfg i beh → WaitsAlike env i beh := by
  constructor
  · intro heq beh hbeh hcompletes
    obtain ⟨seen, hseen⟩ := hcompletes
    rw [← heq {beh} (Set.singleton_subset_iff.mpr hbeh)] at hseen
    obtain ⟨tr, w, hw, hs, rfl, -⟩ := hseen
    exact .inr (.inr (readToEnd_of_reaches hw hs))
  · intro h B' hB'
    exact Set.Subset.antisymm (outcomes_capture_subset B')
      (outcomes_plain_subset fun beh hbeh => h beh (hB' hbeh))

end Runs

/-! ### A captured run that does not come back

On Windows a failed `child.wait()` is returned at once, with the root alive: the pump loop then
waits for the end of pipes that the root holds. -/

/-- The processes of the trees do nothing, nobody calls `cancel()`, and no read fails. -/
def Label.stands : Label ι → Bool
  | .proc _ _ | .cancel _ _ | .drain _ _ (.read (.error _)) => false
  | _ => true

theorem not_plumbs_of_not_stands [DecidableEq ι] {i : ι} {l : Label ι} (h : l.stands = false) :
    l.plumbs i = false := by
  cases l with
  | drain j s a =>
    cases a with
    | read => rfl
    | send => cases h
  | proc | cancel => rfl
  | _ => cases h

/-- The outcome is an error of `wait`. -/
def Outcome.isWaitFailed : Outcome → Bool
  | .ret (.error (.waitFailed _)) => true
  | _ => false

/-- The places of the run thread up to the pump loop, and those it comes to without an answer of
`wait`. -/
def MainPc.stalls : MainPc → Bool
  | .spawn _ | .toRunning _ | .inStarted | .startMonitor | .openChannel | .dropTx | .startWait
  | .pump | .inChunk => true
  | .leave o | .guardKill _ o | .guardReap o | .finished o => !o.isWaitFailed
  | _ => false

/-- The root runs, and nothing has been done yet that would end it. -/
def MainPc.unharmed : MainPc → Bool
  | .spawn (.assign _) | .toRunning _ | .inStarted | .startMonitor | .openChannel | .dropTx
  | .startWait | .pump | .inChunk => true
  | _ => false

/-- The step of `spawn` has a root that runs. -/
def SpawnNext.unharmed : SpawnNext → Bool
  | .more (.assign _) | .ok _ => true
  | _ => false

/-- The run thread is between the two ends of the channel. -/
def MainPc.channels : MainPc → Bool
  | .dropTx | .startWait | .pump | .inChunk => true
  | _ => false

/-- `wait` has gone on from `child.wait()` to the cleanup. -/
def WaitPc.cleans : WaitPc → Bool
  | .killTree _ | .joinOut _ | .joinErr _ => true
  | _ => false

/-- The run never gets past the pump loop. -/
structure Stalled (r : Run) : Prop where
  /-- The run thread is not past the pump loop. -/
  place : r.main.stalls = true
  /-- The root runs and holds both pipes. -/
  held : r.main.unharmed = true → r.tree.root = .live ∧ ∀ s, r.tree.leader.holds s = true
  /-- `wait` has not cleaned up. -/
  waiting : r.main.unharmed = true → r.waiter.pc.cleans = false
  /-- The drain threads keep the channel open. -/
  unclosed : r.main.channels = true → r.output.chunks.txOut = true

section Moves

variable {env : Env} {c : RunConfig} {i : ι} {hd hd' : CancelHandle ι} {r r' : Run}

theorem MainPc.unharmed_of_channels {m : MainPc} (h : m.channels = true) : m.unharmed = true := by
  cases m <;> first | rfl | cases h

/-- Once the root may be gone, only the place of the run thread counts. -/
theorem Stalled.of_harmed (hplace : r.main.stalls = true) (hharmed : r.main.unharmed = false) :
    Stalled r := by
  have hne : r.main.unharmed ≠ true := by rw [hharmed]; simp
  exact ⟨hplace, fun hu => absurd hu hne, fun hu => absurd hu hne,
    fun hc => absurd (MainPc.unharmed_of_channels hc) hne⟩

/-- `spawn` leaves a root that runs and holds its pipes, or none. -/
theorem spawnStep_held {s : SpawnPc} {a : SpawnAct} {t t' : Tree} {n : SpawnNext}
    (h : spawnStep env t s a = some (t', n)) (hwin : env.platform = .windows)
    (ht : ∀ pid, s = .assign pid → t.root = .live ∧ ∀ s, t.leader.holds s = true)
    (hn : n.unharmed = true) :
    t'.root = .live ∧ ∀ s, t'.leader.holds s = true := by
  cases s with
  | assign pid =>
    obtain ⟨hlive, hholds⟩ := ht pid rfl
    cases a with
    | assign x =>
      cases x with
      | ok =>
        cases h
        exact ⟨hlive, fun s => by rw [← hholds s]; cases s <;> rfl⟩
      | error e =>
        cases h
        exact ⟨hlive, hholds⟩
    | _ => cases h
  | command =>
    cases a with
    | command x =>
      cases x with
      | ok pid =>
        simp only [spawnStep, hwin, Option.some.injEq, Prod.mk.injEq] at h
        obtain ⟨rfl, -⟩ := h
        exact ⟨rfl, fun s => by cases s <;> rfl⟩
      | error e =>
        cases h
        cases hn
    | _ => cases h
  | createJob =>
    cases a with
    | createJob x => cases x <;> cases h <;> cases hn
    | _ => cases h
  | setInfo =>
    cases a with
    | setInfo x => cases x <;> cases h <;> cases hn
    | _ => cases h
  | killChild e =>
    cases a with
    | killChild x =>
      simp only [spawnStep, Option.ite_none_right_eq_some, Option.some.injEq, Prod.mk.injEq] at h
      obtain ⟨-, -, rfl⟩ := h
      cases hn
    | _ => cases h
  | waitChild e =>
    cases a with
    | waitChild x =>
      have hfailed : n = .failed e := by
        cases x with
        | ok =>
          obtain ⟨t₁, -, ht₁⟩ := Option.map_eq_some_iff.mp h
          exact (Prod.mk.inj ht₁).2.symm
        | error => cases h; rfl
      rw [hfailed] at hn
      cases hn
    | _ => cases h

theorem MainMove.stalled {a : MainAct} (h : MainMove env c i hd r a hd' r')
    (hwin : env.platform = .windows) (hc : c = ⟨none, true, false⟩)
    (hpanics : a ≠ .chunkPanics) (hfails : a ≠ .startWait false) (ha : Answered env r)
    (hr : Stalled r) : Stalled r' := by
  subst hc
  obtain ⟨hplace, hheld, hwaiting, hunclosed⟩ := hr
  cases h with
  | @spawnMore s a t s' pc hs =>
    have hidle := ha.before (by rw [pc]; rfl)
    refine ⟨rfl, fun hm => ?_, fun _ => by rw [hidle]; rfl, fun hc => by cases hc⟩
    refine spawnStep_held hs hwin (fun pid hp => hheld (by rw [pc, hp]; rfl)) ?_
    cases s' with
    | assign pid => rfl
    | _ => cases hm
  | @spawnOk s a t pid pc hs =>
    have hidle := ha.before (by rw [pc]; rfl)
    refine ⟨rfl, fun _ => ?_, fun _ => by rw [hidle]; rfl, fun hc => by cases hc⟩
    exact spawnStep_held hs hwin (fun pid hp => hheld (by rw [pc, hp]; rfl)) rfl
  | spawnFailed pc hs => exact .of_harmed rfl rfl
  | recvClosed pc queue closed =>
    have htx := hunclosed (by rw [pc]; rfl)
    simp [ChunkChan.closed, htx] at closed
  | startMonitor pc timeout | startMonitorFails pc timeout => cases timeout
  | chunkPanics => exact absurd rfl hpanics
  | startWaitFails => exact absurd rfl hfails
  | wire pc | loadCancelled pc | loadFired pc | probeMore pc | probeAlive pc | probeDead pc
  | fire pc | killMore pc | killDone pc | recvWait pc | recvWaitLost pc | joinWait pc
  | callWait pc | waitReturned pc | waitPanicked pc | clear pc | stopMonitor pc | loadTimedOut pc
  | loadKillFired pc | exited pc | exitedRefused pc | exitedReturns pc | exitedPanics pc =>
    rw [pc] at hplace
    cases hplace
  | started pc | startedReturns pc | noMonitor pc =>
    rw [pc] at hheld hwaiting
    exact ⟨rfl, fun _ => hheld rfl, fun _ => hwaiting rfl, fun hc => by cases hc⟩
  | openChannel pc =>
    rw [pc] at hheld hwaiting
    exact ⟨rfl, fun _ => hheld rfl, fun _ => hwaiting rfl, fun _ => rfl⟩
  | dropTx pc | recv pc | chunkReturns pc =>
    rw [pc] at hheld hwaiting hunclosed
    exact ⟨rfl, fun _ => hheld rfl, fun _ => hwaiting rfl, fun _ => hunclosed rfl⟩
  | startWait pc =>
    rw [pc] at hheld hunclosed
    exact ⟨rfl, fun _ => hheld rfl, fun _ => rfl, fun _ => hunclosed rfl⟩
  | startedRefused pc h =>
    refine .of_harmed ?_ rfl
    unfold StateMachine.transition at h
    split at h <;> cases h
    rfl
  | startedPanics pc => exact .of_harmed rfl rfl
  | @dropLocals o pc =>
    rw [pc] at hplace
    refine .of_harmed ?_ ?_
    · simp only
      split <;> exact hplace
    · simp only
      split <;> rfl
  | guardMore pc | guardDone pc | guardReap pc =>
    rw [pc] at hplace
    exact .of_harmed hplace rfl

/-- With the root alive, `wait` gets no further than the failure of `child.wait()`. -/
theorem WaitMove.stalled {a : WaitAct} {t : Tree} {o : Output} {x : Waiter}
    (h : WaitMove env true r.tree r.output r.waiter a t o x) (hwin : env.platform = .windows)
    (hout : a ≠ .startOut false) (herr : a ≠ .startErr false) (hr : Stalled r) :
    Stalled { r with tree := t, output := o, waiter := x } := by
  have hchunks : o.chunks = r.output.chunks := by
    cases h with
    | startOutFails => exact absurd rfl hout
    | startErrFails => exact absurd rfl herr
    | _ => rfl
  have hkeeps : r.main.unharmed = true → t = r.tree ∧ x.pc.cleans = false := fun hu => by
    have hlive := (hr.held hu).1
    have hwaiting := hr.waiting hu
    cases h with
    | childWait _ zombie => rw [hlive] at zombie; cases zombie
    | childWaitFails => exact ⟨rfl, by rw [hwin]; rfl⟩
    | killTree pc | joinOut pc | joinErr pc => rw [pc] at hwaiting; cases hwaiting
    | _ => exact ⟨rfl, rfl⟩
  refine ⟨hr.place, fun hu => ?_, fun hu => (hkeeps hu).2, fun hc => ?_⟩
  · rw [(hkeeps hu).1]
    exact hr.held hu
  · rw [hchunks]
    exact hr.unclosed hc

/-- A drain thread does not come to the end of a pipe that the root holds. -/
theorem DrainMove.stalled {s : Stream} {a : DrainAct} {t : Tree} {o : Output}
    (h : DrainMove true s r.tree r.output a t o) (hint : a ≠ .read .interrupted)
    (herr : ∀ e, a ≠ .read (.error e)) (hr : Stalled r) :
    Stalled { r with tree := t, output := o } := by
  have hkeeps : r.main.unharmed = true → t.root = r.tree.root ∧ t.leader = r.tree.leader ∧
      o.chunks.txOut = r.output.chunks.txOut := fun hu => by
    obtain ⟨hlive, hholds⟩ := hr.held hu
    cases h with
    | readBytes => cases s <;> exact ⟨rfl, rfl, rfl⟩
    | readEof _ _ free => simp [Tree.held, Tree.rootLive, hlive, hholds] at free
    | readInterrupted => exact absurd rfl hint
    | readError => exact absurd rfl (herr _)
    | send => exact ⟨rfl, rfl, ChunkChan.tx_send _ _ .stdout⟩
  refine ⟨hr.place, fun hu => ?_, hr.waiting, fun hc => ?_⟩
  · obtain ⟨hroot, hleader, -⟩ := hkeeps hu
    rw [hroot, hleader]
    exact hr.held hu
  · exact (hkeeps (MainPc.unharmed_of_channels hc)).2.2.trans (hr.unclosed hc)

theorem stalled_move [DecidableEq ι] {l : Label ι} {w : World ι} (h : RunMove env c i hd r l r')
    (hwin : env.platform = .windows) (hc : c = ⟨none, true, false⟩) (hsmooth : Smooth i w l)
    (hstands : l.stands = true) (ha : Answered env r) (hl : Lifecycle c r) (hr : Stalled r) :
    Stalled r' := by
  cases h with
  | main h => exact h.stalled hwin hc (hsmooth rfl).1 (hsmooth rfl).2 ha hr
  | monitor h =>
    -- there is no monitor without a timeout
    have := hl.monitor h.monitor_ne_idle
    rw [hc] at this
    cases this
  | wait h =>
    rw [hc] at h
    exact h.stalled hwin (hsmooth rfl).1 (hsmooth rfl).2 hr
  | drain h =>
    rw [hc] at h
    refine h.stalled (hsmooth rfl) (fun e he => ?_) hr
    rw [he] at hstands
    cases hstands
  | proc | cancelKill => cases hstands
  | other => exact hr

end Moves

/-- **With capture, a run on Windows whose processes do nothing never reports a failed
`child.wait()`.** -/
theorem stalled_of_reaches [DecidableEq ι] {env : Env} {cfg : ι → RunConfig} {i : ι}
    {tr : List (Label ι)} {w : World ι} (h : Reaches env cfg tr w)
    (hs : Lts.Along (step env cfg) (Smooth i) (World.init ι env) tr)
    (hwin : env.platform = .windows) (hc : cfg i = ⟨none, true, false⟩)
    (hstands : ∀ l ∈ tr, l.stands = true) : Stalled (w.runs i) := by
  refine Lts.exec_invariant_along (P := fun tr w => (∀ l ∈ tr, l.stands = true) →
    Stalled (w.runs i)) (fun _ => ?_) ?_ h hs hstands
  · have hentry : ((World.init ι env).runs i).main = .spawn .createJob := by
      simp [World.init, Run.init, SpawnPc.entry, hwin]
    exact .of_harmed (by rw [hentry]; rfl) (by rw [hentry]; rfl)
  · intro tr w l w' hw ih hsmooth hstep hstands
    exact stalled_move (runMove_of_step hstep i) hwin hc hsmooth (hstands l (by simp))
      (answered_of_reaches hw i) (lifecycle_of_reaches hw i)
      (ih fun l hl => hstands l (by simp [hl]))

/-- The behaviours in which the processes do nothing, nobody calls `cancel()`, and no read
fails: `child.wait()` can only fail. -/
def standstill : Set (List (Label Unit)) := {beh | ∀ l ∈ beh, l.stands = true}

/-- `child.wait()` fails, and the run is left with its error. -/
def failedWaitRun : List (Label Unit) :=
  [.main () (.spawn (.createJob (.ok ()))), .main () (.spawn (.setInfo (.ok ()))),
    .main () (.spawn (.command (.ok 7))), .main () (.spawn (.assign (.ok ()))),
    .main () .started, .main () .startedReturns, .main () (.startMonitor true),
    .main () .callWait, .wait () (.startOut true), .wait () (.startErr true),
    .wait () (.childWait (.error (.os 6))), .main () .waitReturned, .main () .dropLocals,
    .main () (.guardKill (.terminate .present)), .main () (.guardReap .returned)]

/-- Without capture a failed `child.wait()` is reported on Windows; with capture it is not, as
long as a process holds the pipes. -/
theorem capture_hides_failed_wait :
    ((.ret (.error (.waitFailed (.os 6))), [.started 7]) : Seen) ∈
        Outcomes Env.win32 (fun _ => ⟨none, false, false⟩) () false standstill ∧
      ((.ret (.error (.waitFailed (.os 6))), [.started 7]) : Seen) ∉
        Outcomes Env.win32 (fun _ => ⟨none, false, false⟩) () true standstill := by
  constructor
  · obtain ⟨w, hw, hmain, hevents⟩ : ∃ w,
        Reaches Env.win32 (capturing (fun _ => ⟨none, false, false⟩) () false) failedWaitRun w ∧
          (w.runs ()).main = .finished (.ret (.error (.waitFailed (.os 6)))) ∧
          (w.runs ()).events.filter Event.isLifecycle = [.started 7] :=
      Lts.exists_exec_of_any (by decide +kernel)
    refine ⟨failedWaitRun, w, hw, Lts.along_of_forall_mem ?_, ?_, hmain, hevents⟩
    · simp [failedWaitRun, Smooth]
    · intro l
      simp only [failedWaitRun]
      revert l
      decide
  · rintro ⟨tr, w, hw, hs, hbeh, hmain, -⟩
    have hstalled := stalled_of_reaches hw hs rfl (capturing_self true) fun l hl => by
      by_contra hl'
      have hplumbs := not_plumbs_of_not_stands (i := ()) (Bool.eq_false_iff.mpr hl')
      exact hl' (hbeh l ((mem_flatMap_erase hplumbs).mpr hl))
    have hplace := hstalled.place
    rw [hmain] at hplace
    cases hplace

end AerCore
