import AerCore.Once
import AerCore.Precedence

/-!
# Kills that are refused

`kill_escalating` reports a refused signal as `KillFailed`, and each of its three callers
drops that result: the flag that decides the verdict is stored before the call.  So a refused
kill goes unreported only if its flag comes too late, after the run thread has loaded it.

## Main definitions

* `CallsFail` — every `kill_escalating` that the monitor, `cancel()` or the wiring block
  called for a run has returned `KillFailed`.
* `Run.reportsKill` — the run reports a timeout or a cancellation.
* `Misled` — the verdict reads a flag that was stored for a kill that failed.

## Main results

* `killEscalatingStep_refused` — `kill_escalating` fails exactly when a signal to the group
  is refused.
* `reported_of_reaches`, `told_of_reaches` — `Exited` says what was loaded.
* `refused_kill_is_not_reported_iff` — **when no failed kill is reported as a kill**.
* `refusedTimeout_is_reported` — one that is.
-/

namespace AerCore

variable {ι : Type*}

/-! ### Refusals -/

/-- `kill_escalating` returns `KillFailed` exactly when the group's signal is refused. -/
theorem killEscalatingStep_refused {env : Env} {grace : Grace} {t t' : Tree} {k k' : KillPc}
    {a : KillAct} (h : killEscalatingStep env grace t k a = some (t', k')) :
    (∃ e, k' = .done (.error (.killFailed e))) ↔ a.refused = true := by
  cases killMove_of_step h with
  | @terminate r _ hr =>
    cases r with
    | error e => exact absurd rfl (hr e)
    | _ => simp [KillAct.refused]
  | _ => simp [KillAct.refused]

/-- Every `kill_escalating` called for run `i` by the monitor, by the wiring block or by
`cancel()`, each of which follows the store of its flag, has returned `KillFailed`.  None of
them calls it twice for a run. -/
structure CallsFail (i : ι) (tr : List (Label ι)) : Prop where
  monitor : .monitor i .store ∈ tr → ∃ a : KillAct, a.refused = true ∧ .monitor i (.kill a) ∈ tr
  wiring : .main i .fire ∈ tr → ∃ a : KillAct, a.refused = true ∧ .main i (.kill a) ∈ tr
  cancel : ∀ q, .cancel q (.fire i) ∈ tr →
    ∃ a : KillAct, a.refused = true ∧ .cancel q (.kill i a) ∈ tr

/-- A flag that the verdict of run `i` reads was stored before it was loaded, for a kill that
was refused or for another run of the handle. -/
inductive Misled (cfg : ι → RunConfig) (i : ι) (tr : List (Label ι)) : Prop
  | monitor {a : KillAct} {b} (stored : [.monitor i .store, .main i (.loadTimedOut b)].Sublist tr)
      (refused : a.refused = true) (kill : .monitor i (.kill a) ∈ tr)
  | wiring {a : KillAct} {b} (stored : [.main i .fire, .main i (.loadKillFired b)].Sublist tr)
      (refused : a.refused = true) (kill : .main i (.kill a) ∈ tr)
  | cancel {q} {a : KillAct} {b}
      (stored : [.cancel q (.fire i), .main i (.loadKillFired b)].Sublist tr)
      (refused : a.refused = true) (kill : .cancel q (.kill i a) ∈ tr)
  | foreign {j l b} (handle : (cfg i).cancel = true) (other : j ≠ i)
      (fires : l = .main j .fire ∨ ∃ q, l = .cancel q (.fire j))
      (stored : [l, .main i (.loadKillFired b)].Sublist tr)

/-! ### What a run reports -/

/-- The run says that it was killed, on `Exited` or by its result. -/
def Run.reportsKill (r : Run) : Prop :=
  (∃ code reason, .exited code reason ∈ r.events ∧ reason ≠ .naturalExit) ∨
    r.main = .finished (.ret (.error .timedOut)) ∨ r.main = .finished (.ret (.error .cancelled))

/-- What `Exited` says is what was loaded, about a root that has been reaped. -/
def Reported (i : ι) (tr : List (Label ι)) (r : Run) : Prop :=
  ∀ code reason, .exited code reason ∈ r.events → ∃ status t cn, r.tree.root = .reaped status ∧
    code = exitCode (status.getD (-1)) t cn ∧ reason = exitReason t cn ∧
    (t = true → .main i (.loadTimedOut true) ∈ tr) ∧
    (cn = true → .main i (.loadKillFired true) ∈ tr)

/-- A flag that was loaded as set is told on `Exited`, or is about to be. -/
structure Told (i : ι) (tr : List (Label ι)) (r : Run) : Prop where
  timedOut : .main i (.loadTimedOut true) ∈ tr → (∃ code, r.main = .loadKillFired code true) ∨
    (∃ code cn, r.main = .toExited code true cn) ∨ ∃ code, .exited code .timedOut ∈ r.events
  killFired : .main i (.loadKillFired true) ∈ tr → (∃ code t, r.main = .toExited code t true) ∨
    ∃ code reason, .exited code reason ∈ r.events ∧ reason ≠ .naturalExit

section Moves

variable {env : Env} {c : RunConfig} {i : ι} {hd hd' : CancelHandle ι} {r r' : Run} {a : MainAct}
  {l : Label ι} {tr : List (Label ι)}

theorem reported_move [DecidableEq ι] (h : RunMove env c i hd r l r') (ha : Answered env r)
    (hlc : Lifecycle c r) (hl : Loaded i tr r.main) (hr : Reported i tr r) :
    Reported i (tr ++ [l]) r' := by
  intro code reason he
  -- an event that was there before keeps its reaped root and its loads
  have hold : .exited code reason ∈ r.events → ∃ status t cn, r'.tree.root = .reaped status ∧
      code = exitCode (status.getD (-1)) t cn ∧ reason = exitReason t cn ∧
      (t = true → .main i (.loadTimedOut true) ∈ tr ++ [l]) ∧
      (cn = true → .main i (.loadKillFired true) ∈ tr ++ [l]) := by
    intro he
    obtain ⟨status, t, cn, hroot, hcode, hreason, ht, hcn⟩ := hr code reason he
    have hspawned : ∀ b, l ≠ .main i (.spawn b) := fun b hb => by
      subst hb
      cases h with
      | main h =>
        obtain ⟨s, hs⟩ := h.edge.spawning
        have hev := hlc.events
        rw [hs] at hev
        rw [hev.1] at he
        cases he
      | other hl => simp [Label.touches] at hl
    exact ⟨status, t, cn, (h.tree hspawned).reaped hroot, hcode, hreason,
      fun h => List.mem_append_left _ (ht h), fun h => List.mem_append_left _ (hcn h)⟩
  rcases h.exited_mem he with he | ⟨os, t, cn, pc, rfl, rfl⟩
  · exact hold he
  · obtain ⟨⟨status, hroot, rfl⟩, -⟩ := (ha.main (.ok os) (by rw [pc]; rfl)).2
    have hspawned : ∀ b, l ≠ .main i (.spawn b) := fun b hb => by
      subst hb
      cases h with
      | main h =>
        obtain ⟨s, hs⟩ := h.edge.spawning
        rw [pc] at hs
        cases hs
      | other hl => simp [Label.touches] at hl
    rw [pc] at hl
    refine ⟨status, t, cn, (h.tree hspawned).reaped hroot, rfl, rfl, fun ht => ?_, fun hcn => ?_⟩
    · exact List.mem_append_left _ ((hl.1 true).mpr ht.symm)
    · subst hcn
      exact List.mem_append_left _ hl.2

theorem MainEdge.of_loadTimedOut {m m' : MainPc} {b : Bool}
    (h : MainEdge env c m (.loadTimedOut b) m') : ∃ code, m' = .loadKillFired code b := by
  cases h
  exact ⟨_, rfl⟩

theorem MainEdge.of_loadKillFired {m m' : MainPc} {b : Bool}
    (h : MainEdge env c m (.loadKillFired b) m') : ∃ code t, m' = .toExited code t b := by
  cases h
  exact ⟨_, _, rfl⟩

theorem MainEdge.from_loadKillFired {m m' : MainPc} {code : ℤ} {t : Bool}
    (h : MainEdge env c m a m') (hm : m = .loadKillFired code t) :
    ∃ cn, m' = .toExited code t cn := by
  subst hm
  cases h
  exact ⟨_, rfl⟩

theorem RunMove.mem_events [DecidableEq ι] (h : RunMove env c i hd r l r') {e : Event}
    (he : e ∈ r.events) : e ∈ r'.events := by
  cases h with
  | main h =>
    cases h with
    | started | exited | recv => exact List.mem_append_left _ he
    | @joinWait res | @waitReturned res => cases res <;> exact he
    | _ => exact he
  | monitor h => cases h <;> exact he
  | wait | drain | proc | cancelKill | other => exact he

/-- A run that has made up its verdict emits it. -/
theorem MainMove.tells (h : MainMove env c i hd r a hd' r') (hlc : Lifecycle c r) {code : ℤ}
    {t cn : Bool} (hm : r.main = .toExited code t cn) :
    .exited (exitCode code t cn) (exitReason t cn) ∈ r'.events := by
  cases h with
  | exited pc =>
    rw [hm] at pc
    cases pc
    simp
  | exitedRefused pc hrefused =>
    have hrun := hlc.events
    rw [hm] at hrun
    have hstate := hrun.1.1
    simp [StateMachine.transition, hstate] at hrefused
  | _ pc =>
    rw [hm] at pc
    cases pc

theorem told_move [DecidableEq ι] (h : RunMove env c i hd r l r') (hlc : Lifecycle c r)
    (ht : Told i tr r) : Told i (tr ++ [l]) r' := by
  refine ⟨fun hl => ?_, fun hl => ?_⟩ <;> rcases List.mem_append.mp hl with hl | hl
  · rcases ht.timedOut hl with ⟨code, hm⟩ | ⟨code, cn, hm⟩ | ⟨code, he⟩
    · cases h with
      | main h =>
        obtain ⟨cn, hm'⟩ := h.edge.from_loadKillFired hm
        exact .inr (.inl ⟨code, cn, hm'⟩)
      | monitor h => exact .inl ⟨code, h.main_eq.trans hm⟩
      | wait | drain | proc | cancelKill | other => exact .inl ⟨code, hm⟩
    · cases h with
      | main h => exact .inr (.inr ⟨_, h.tells hlc hm⟩)
      | monitor h => exact .inr (.inl ⟨code, cn, h.main_eq.trans hm⟩)
      | wait | drain | proc | cancelKill | other => exact .inr (.inl ⟨code, cn, hm⟩)
    · exact .inr (.inr ⟨code, h.mem_events he⟩)
  · obtain rfl := List.mem_singleton.mp hl
    cases h with
    | main h => exact .inl h.edge.of_loadTimedOut
    | other hl => simp [Label.touches] at hl
  · rcases ht.killFired hl with ⟨code, t, hm⟩ | ⟨code, reason, he, hne⟩
    · cases h with
      | main h => exact .inr ⟨_, _, h.tells hlc hm, by cases t <;> decide⟩
      | monitor h => exact .inl ⟨code, t, h.main_eq.trans hm⟩
      | wait | drain | proc | cancelKill | other => exact .inl ⟨code, t, hm⟩
    · exact .inr ⟨code, reason, h.mem_events he, hne⟩
  · obtain rfl := List.mem_singleton.mp hl
    cases h with
    | main h => exact .inl h.edge.of_loadKillFired
    | other hl => simp [Label.touches] at hl

end Moves

section Runs

variable [DecidableEq ι] {env : Env} {cfg : ι → RunConfig} {tr : List (Label ι)} {w : World ι}
  {i : ι}

theorem reported_of_reaches (h : Reaches env cfg tr w) (i : ι) : Reported i tr (w.runs i) := by
  refine Lts.exec_invariant (P := fun tr w => Reported i tr (w.runs i)) ?_ ?_ h
  · intro code reason he
    cases he
  · intro tr w l w' hw hr hstep
    exact reported_move (runMove_of_step hstep i) (answered_of_reaches hw i)
      (lifecycle_of_reaches hw i) (loaded_of_reaches hw i) hr

theorem told_of_reaches (h : Reaches env cfg tr w) (i : ι) : Told i tr (w.runs i) := by
  refine Lts.exec_invariant (P := fun tr w => Told i tr (w.runs i)) ?_ ?_ h
  · refine ⟨fun hl => ?_, fun hl => ?_⟩ <;> cases hl
  · intro tr w l w' hw ht hstep
    exact told_move (runMove_of_step hstep i) (lifecycle_of_reaches hw i) ht

omit [DecidableEq ι] in
theorem Label.fires_iff [DecidableEq ι] {j : ι} {l : Label ι} :
    l.fires j = true ↔ l = .main j .fire ∨ ∃ q, l = .cancel q (.fire j) := by
  cases l with
  | main k a => cases a <;> simp [Label.fires]
  | cancel q a => cases a <;> simp [Label.fires]
  | _ => simp [Label.fires]

/-- **The load of `kill_fired` returns `true` exactly if the run has the handle and a store
comes before it**, for whatever run of the handle. -/
theorem loadKillFired_iff (h : Reaches env cfg tr w) :
    .main i (.loadKillFired true) ∈ tr ↔ (cfg i).cancel = true ∧ ∃ l b,
      (∃ j, l.fires j = true) ∧ [l, .main i (.loadKillFired b)].Sublist tr := by
  have hload : ∀ {w₁ w₂ : World ι} {b : Bool},
      step env cfg w₁ (.main i (.loadKillFired b)) = some w₂ →
      ((cfg i).cancel && w₁.handle.killFired) = b := by
    intro w₁ w₂ b hstep
    cases handleMove_of_step hstep with
    | main h => exact h.killFired_eq
    | inner hl => cases hl
  constructor
  · intro hl
    obtain ⟨before, after, w₁, w₂, rfl, hbefore, hstep, -⟩ := Lts.exec_of_mem h hl
    obtain ⟨hc, hfired⟩ := Bool.and_eq_true_iff.mp (hload hstep)
    obtain ⟨j, hj⟩ := (killFired_iff hbefore).mp hfired
    obtain ⟨l, hmem, hf⟩ := List.any_eq_true.mp hj
    exact ⟨hc, l, true, ⟨j, hf⟩, (List.singleton_sublist.mpr hmem).append
      (List.Sublist.cons_cons _ (List.nil_sublist after))⟩
  · rintro ⟨hc, l, b, ⟨j, hf⟩, hab⟩
    obtain ⟨l₁, l₂, l₃, w₁, w₂, w₃, w₄, rfl, h₁, hstore, h₃, hstep, -⟩ :=
      Lts.exec_of_sublist_pair h hab
    have hreach : Reaches env cfg (l₁ ++ (l :: l₂)) w₃ :=
      Lts.exec_append_eq_some.mpr ⟨w₁, h₁, by simp [hstore, h₃]⟩
    have hfired := (killFired_iff hreach).mpr ⟨j, by simp [hf]⟩
    have hb := hload hstep
    rw [hc, hfired] at hb
    subst hb
    simp

/-- A run that reports a kill says so on `Exited`. -/
theorem Run.reportsKill.exited (h : Reaches env cfg tr w) (hr : (w.runs i).reportsKill) :
    ∃ code reason, .exited code reason ∈ (w.runs i).events ∧ reason ≠ .naturalExit := by
  rcases hr with hr | hr | hr
  · exact hr
  · obtain ⟨k, hk⟩ := hasShape_of_returned h hr
    cases k <;> simp [HasShape] at hk
    obtain ⟨-, pid, chunks, -, hev⟩ := hk
    exact ⟨-1, .timedOut, by simp [hev], by simp⟩
  · obtain ⟨k, hk⟩ := hasShape_of_returned h hr
    cases k <;> simp [HasShape] at hk
    obtain ⟨-, pid, chunks, -, hev⟩ := hk
    exact ⟨-1, .cancelRequested, by simp [hev], by simp⟩

/-- A run that reports a kill, all of whose kills have failed, was misled. -/
theorem misled_of_reportsKill (h : Reaches env cfg tr w) (hfailed : CallsFail i tr)
    (hr : (w.runs i).reportsKill) : Misled cfg i tr := by
  obtain ⟨code, reason, he, hne⟩ := hr.exited h
  obtain ⟨status, t, cn, -, -, rfl, ht, hcn⟩ := reported_of_reaches h i code reason he
  cases t with
  | true =>
    obtain ⟨b, hstored⟩ := (loadTimedOut_iff h).mp (ht rfl)
    obtain ⟨a, ha, hkill⟩ := hfailed.monitor (hstored.subset (by simp))
    exact .monitor hstored ha hkill
  | false =>
    cases cn with
    | false => exact absurd rfl hne
    | true =>
      obtain ⟨hc, l, b, ⟨j, hf⟩, hstored⟩ := (loadKillFired_iff h).mp (hcn rfl)
      have hf := Label.fires_iff.mp hf
      by_cases hj : j = i
      · subst hj
        rcases hf with rfl | ⟨q, rfl⟩
        · obtain ⟨a, ha, hkill⟩ := hfailed.wiring (hstored.subset (by simp))
          exact .wiring hstored ha hkill
        · obtain ⟨a, ha, hkill⟩ := hfailed.cancel q (hstored.subset (by simp))
          exact .cancel hstored ha hkill
      · exact .foreign hc hj hf hstored

/-- A run that was misled and has been left reports a kill. -/
theorem reportsKill_of_misled (h : Reaches env cfg tr w) {o : Outcome}
    (hfin : (w.runs i).main = .finished o) (hm : Misled cfg i tr) : (w.runs i).reportsKill := by
  have htold := told_of_reaches h i
  have hfired : ∀ {j l b}, (cfg i).cancel = true → l.fires j = true →
      [l, .main i (.loadKillFired b)].Sublist tr → (w.runs i).reportsKill := by
    intro j l b hc hf hstored
    rcases htold.killFired ((loadKillFired_iff h).mpr ⟨hc, l, b, ⟨j, hf⟩, hstored⟩) with
      ⟨code, t, hpc⟩ | hev
    · rw [hfin] at hpc
      cases hpc
    · exact .inl hev
  -- a run that is fired at has the handle
  have hown : ∀ {l b}, l.fires i = true → [l, .main i (.loadKillFired b)].Sublist tr →
      (w.runs i).reportsKill := fun hf hstored =>
    hfired (cancel_of_fires h (List.any_eq_true.mpr ⟨_, hstored.subset (by simp), hf⟩)) hf hstored
  cases hm with
  | monitor stored =>
    rcases htold.timedOut ((loadTimedOut_iff h).mpr ⟨_, stored⟩) with
      ⟨code, hpc⟩ | ⟨code, cn, hpc⟩ | ⟨code, he⟩
    · rw [hfin] at hpc
      cases hpc
    · rw [hfin] at hpc
      cases hpc
    · exact .inl ⟨code, .timedOut, he, by simp⟩
  | wiring stored => exact hown (Label.fires_iff.mpr (.inl rfl)) stored
  | cancel stored => exact hown (Label.fires_iff.mpr (.inr ⟨_, rfl⟩)) stored
  | foreign handle _ fires stored => exact hfired handle (Label.fires_iff.mpr fires) stored

/-- **When no failed kill is reported as a kill.**  Let every `kill_escalating` called for the
tree of a run have returned `KillFailed`, and the run have been left.  It reports neither a
timeout nor a cancellation, and `Exited` carries the code of the root, exactly if no refused
kill has stored its flag before the run thread loaded it, and no other run of the handle was
fired at by then. -/
theorem refused_kill_is_not_reported_iff (h : Reaches env cfg tr w) (hfailed : CallsFail i tr)
    {o : Outcome} (hfin : (w.runs i).main = .finished o) :
    (¬(w.runs i).reportsKill ∧
      ∀ code reason, .exited code reason ∈ (w.runs i).events → reason = .naturalExit ∧
        ∃ status, (w.runs i).tree.root = .reaped status ∧ code = status.getD (-1)) ↔
      ¬Misled cfg i tr := by
  constructor
  · rintro ⟨hnot, -⟩ hm
    exact hnot (reportsKill_of_misled h hfin hm)
  · intro hm
    have hnot : ¬(w.runs i).reportsKill := fun hr => hm (misled_of_reportsKill h hfailed hr)
    refine ⟨hnot, fun code reason he => ?_⟩
    obtain ⟨status, t, cn, hroot, rfl, rfl, -⟩ := reported_of_reaches h i code reason he
    have hnatural : exitReason t cn = .naturalExit := by
      by_contra hne
      exact hnot (.inl ⟨_, _, he, hne⟩)
    obtain ⟨rfl, rfl⟩ : t = false ∧ cn = false := by
      revert hnatural
      cases t <;> cases cn <;> decide
    exact ⟨rfl, status, hroot, rfl⟩

end Runs

/-- The deadline passes and the probe answers alive, but the monitor stores its flag only
after the run thread has loaded it; the OS refuses the signal (`EPERM`). -/
def lateRefusal : List (Label Unit) :=
  beginRun () 7 ++
  [Label.monitor () .deadline, .monitor () (.probe .present), .main () .callWait,
    .wait () (.startOut true), .wait () (.startErr true), .proc () (.fork .root),
    .proc () (.close (.kid 0) .stdout), .proc () (.close (.kid 0) .stderr),
    .proc () (.rootExit (some 3)), .wait () (.childWait (.ok ())),
    .wait () (.killTree (.error (.os 1))), .drain () .stdout (.read .eof),
    .drain () .stderr (.read .eof), .wait () .joinOut, .wait () .joinErr,
    .main () .waitReturned] ++
  endRun () false false ++
  [Label.monitor () .store, .monitor () (.kill (.term (.error (.os 1))))]

/-- The refused kill goes unreported. -/
theorem lateRefusal_reports_no_kill :
    ∃ w, Reaches ⟨.unix, false, true, 65536⟩ (fun _ => ⟨some 10, false, true⟩) lateRefusal w ∧
      (w.runs ()).events = [.started 7, .exited 3 .naturalExit] ∧
      CallsFail () lateRefusal ∧ .monitor () .store ∈ lateRefusal ∧ ¬(w.runs ()).reportsKill := by
  obtain ⟨w, hw, hev, hfin⟩ : ∃ w,
      Reaches ⟨.unix, false, true, 65536⟩ (fun _ => ⟨some 10, false, true⟩) lateRefusal w ∧
      (w.runs ()).events = [.started 7, .exited 3 .naturalExit] ∧
      (w.runs ()).main = .finished (.ret (.ok ())) := Lts.exists_exec_of_any (by decide +kernel)
  have hfires : ∀ l ∈ lateRefusal, l.fires () = false := by decide
  have hfailed : CallsFail () lateRefusal := by
    refine ⟨fun _ => ⟨.term (.error (.os 1)), rfl, by decide⟩, fun hl => ?_, fun q hl => ?_⟩
    · cases hfires _ hl
    · cases hfires _ hl
  have hload : ∀ b, ¬[.monitor () .store, .main () (.loadTimedOut b)].Sublist lateRefusal := by
    decide
  refine ⟨w, hw, hev, hfailed, by decide,
    ((refused_kill_is_not_reported_iff hw (i := ()) hfailed hfin).mpr fun hm => ?_).1⟩
  cases hm with
  | monitor stored => exact hload _ stored
  | wiring stored => cases hfires (.main () .fire) (stored.subset (by simp))
  | @cancel q _ _ stored => cases hfires (.cancel q (.fire ())) (stored.subset (by simp))
  | foreign _ other => exact other rfl

/-- The OS refuses the monitor's signal (`EPERM`), and the root ends by itself later on. -/
def refusedTimeout : List (Label Unit) :=
  beginRun () 7 ++
  [.monitor () .deadline, .monitor () (.probe .present), .monitor () .store,
    .monitor () (.kill (.term (.error (.os 1))))] ++
  waitNatural () 0 ++ endRun () true false

/-- The only kill has failed, and the run reports a timeout with -1 for the root's 0. -/
theorem refusedTimeout_is_reported :
    CallsFail () refusedTimeout ∧
    ∃ w, Reaches ⟨.unix, false, true, 65536⟩ (fun _ => ⟨some 10, false, true⟩) refusedTimeout w ∧
      (w.runs ()).tree.root = .reaped (some 0) ∧
      (w.runs ()).events = [.started 7, .exited (-1) .timedOut] ∧
      (w.runs ()).main = .finished (.ret (.error .timedOut)) := by
  have hfires : ∀ l ∈ refusedTimeout, l.fires () = false := by decide
  refine ⟨⟨fun _ => ⟨.term (.error (.os 1)), rfl, by decide⟩, fun hl => ?_, fun q hl => ?_⟩,
    Lts.exists_exec_of_any (by decide +kernel)⟩
  · cases hfires _ hl
  · cases hfires _ hl

end AerCore
