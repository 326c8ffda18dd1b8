import AerCore.Cancel

/-!
# Two triggers

A run with a timeout and a cancel handle can be hit by both triggers, the second one
while the tree still has the grace period of the first.  Each trigger leaves only a flag
behind, so the verdict cannot depend on their order: the timeout is tested first, and it
is named whenever its flag was stored in time.

## Main results

* `timeout_takes_precedence` — **which trigger a run reports**.
* `cancelThenTimeout_reports_timeout` — a cancellation that killed first is not named.
-/

namespace AerCore

variable {ι : Type*}

/-- The `Exited` event of a run that returned goes with its result. -/
theorem HasShape.exited {c : RunConfig} {root : Root} {es : List Event}
    {res : Except AerError Unit} {k : ShapeKind} (h : HasShape c root es res k) {code : ℤ}
    {reason : ExitReason} (he : .exited code reason ∈ es) :
    ∃ t cn, res = runResult t cn ∧ reason = exitReason t cn := by
  -- an event after `Started` that is not a chunk is the last one
  have hlast : ∀ {pid chunks code' reason'}, ChunksOnly c chunks →
      es = .started pid :: (chunks ++ [.exited code' reason']) → reason = reason' := by
    rintro pid chunks code' reason' hchunks rfl
    simp only [List.mem_cons, reduceCtorEq, List.mem_append, Event.exited.injEq,
      List.not_mem_nil, or_false, false_or] at he
    rcases he with he | ⟨-, rfl⟩
    · have := hchunks.1 _ he
      cases this
    · rfl
  cases k with
  | spawnFailed =>
    rw [h.1] at he
    cases he
  | natural =>
    obtain ⟨pid, chunks, status, hchunks, -, hes, rfl⟩ := h
    exact ⟨false, false, rfl, hlast hchunks hes⟩
  | timedOut =>
    obtain ⟨-, pid, chunks, hchunks, hes, rfl⟩ := h
    exact ⟨true, false, rfl, hlast hchunks hes⟩
  | cancelled =>
    obtain ⟨-, pid, chunks, hchunks, hes, rfl⟩ := h
    exact ⟨false, true, rfl, hlast hchunks hes⟩
  | waitFailed =>
    obtain ⟨pid, chunks, e, hchunks, hes, -⟩ := h
    rw [hes] at he
    simp only [List.mem_cons, reduceCtorEq, false_or] at he
    have := hchunks.1 _ he
    cases this

/-- The reason and the result go together. -/
theorem exitReason_of_runResult {t cn t' cn' : Bool} (h : runResult t cn = runResult t' cn') :
    exitReason t cn = exitReason t' cn' := by
  revert t cn t' cn'
  decide

variable [DecidableEq ι] {env : Env} {cfg : ι → RunConfig} {tr : List (Label ι)} {w : World ι}
  {i : ι}

/-- **Which trigger a run reports.**  A run on a handle of its own that emits `Exited` and
returns names the timeout, as reason and as error, exactly if the monitor stored
`timed_out` before the run thread loaded it, whether or not a cancellation killed the tree
earlier; otherwise it names the cancellation if one fired, and its natural end if none
did. -/
theorem timeout_takes_precedence (h : Reaches env cfg tr w) (hc : (cfg i).cancel = true)
    (hs : SoleRun cfg i) {res : Except AerError Unit}
    (hret : (w.runs i).main = .finished (.ret res)) {code : ℤ} {reason : ExitReason}
    (hexited : .exited code reason ∈ (w.runs i).events) :
    ((∃ b, [.monitor i .store, .main i (.loadTimedOut b)].Sublist tr) →
      reason = .timedOut ∧ res = .error .timedOut) ∧
    ((¬∃ b, [.monitor i .store, .main i (.loadTimedOut b)].Sublist tr) →
      (∃ l ∈ tr, l.fires i = true) → reason = .cancelRequested ∧ res = .error .cancelled) ∧
    ((¬∃ b, [.monitor i .store, .main i (.loadTimedOut b)].Sublist tr) →
      (∀ l ∈ tr, l.fires i = false) → reason = .naturalExit ∧ res = .ok ()) := by
  obtain ⟨k, hk⟩ := hasShape_of_returned h hret
  obtain ⟨t', cn', hres', hreason⟩ := hk.exited hexited
  have hl := loaded_of_reaches h i
  rw [hret] at hl
  obtain ⟨t, cn, hres, ht, hcn⟩ := hl (by rw [hres']; exact isVerdict_runResult t' cn')
  -- the reason and the error are those of the values that were loaded
  have hreason : reason = exitReason t cn :=
    hreason.trans (exitReason_of_runResult (hres'.symm.trans hres))
  have ht : (∃ b, [.monitor i .store, .main i (.loadTimedOut b)].Sublist tr) ↔ t = true := by
    rw [← loadTimedOut_iff h, ht true, eq_comm]
  have hcn : (∃ l ∈ tr, l.fires i = true) ↔ cn = true := by
    rw [← List.any_eq_true, ← hs.killFired_iff h, loadKillFired_eq h hc hs hcn]
  rw [ht]
  refine ⟨?_, ?_, ?_⟩
  · rintro rfl
    exact ⟨hreason, hres⟩
  · intro hnot hfired
    rw [hcn] at hfired
    rw [Bool.not_eq_true] at hnot
    subst hfired hnot
    exact ⟨hreason, hres⟩
  · intro hnot hnone
    have hnot' : ¬cn = true := fun hcn' => by
      obtain ⟨l, hl, hf⟩ := hcn.mpr hcn'
      rw [hnone l hl] at hf
      cases hf
    rw [Bool.not_eq_true] at hnot hnot'
    subst hnot hnot'
    exact ⟨hreason, hres⟩

/-- A run is cancelled, its root does not give in, and the deadline passes in the grace
period of that kill. -/
def cancelThenTimeout : List (Label Unit) :=
  beginRun () 7 ++
  [.main () .callWait, .wait () (.startOut true), .wait () (.startErr true),
    .cancel (.thread 0) (.swap false), .cancel (.thread 0) .lock,
    .cancel (.thread 0) (.probe () .present), .cancel (.thread 0) (.fire ()),
    .cancel (.thread 0) (.kill () (.term .present)), .monitor () .deadline,
    .monitor () (.probe .present), .monitor () .store, .monitor () (.kill (.term .present)),
    .cancel (.thread 0) (.kill () (.probe .present)), .cancel (.thread 0) (.kill () (.clock true)),
    .cancel (.thread 0) (.kill () (.kill .present)), .cancel (.thread 0) .unlock,
    .wait () (.childWait (.ok ())), .wait () (.killTree .absent),
    .drain () .stdout (.read .eof), .drain () .stderr (.read .eof), .wait () .joinOut,
    .wait () .joinErr, .main () .waitReturned] ++
  endRun () true true

/-- Both triggers fire, and the timeout is named. -/
theorem cancelThenTimeout_precedence :
    ∃ w, Reaches Env.posix (fun _ => ⟨some 10, false, true⟩) cancelThenTimeout w ∧
      (∃ l ∈ cancelThenTimeout, l.fires () = true) ∧
      (∃ code, .exited code .timedOut ∈ (w.runs ()).events) ∧
      ∀ code reason, .exited code reason ∈ (w.runs ()).events → reason = .timedOut := by
  obtain ⟨w, hw, hret, hev⟩ :
      ∃ w, Reaches Env.posix (fun _ => ⟨some 10, false, true⟩) cancelThenTimeout w ∧
        (w.runs ()).main = .finished (.ret (.error .timedOut)) ∧
        (w.runs ()).events = [.started 7, .exited (-1) .timedOut] :=
    Lts.exists_exec_of_any (by decide +kernel)
  refine ⟨w, hw, by decide, ⟨-1, by simp [hev]⟩, fun code reason hexited => ?_⟩
  obtain ⟨htimeout, -, -⟩ := timeout_takes_precedence hw (i := ()) rfl
    (fun j hj => absurd rfl hj) hret hexited
  exact (htimeout ⟨true, by decide⟩).1

/-- The cancellation has killed before the deadline fires, and the timeout is named. -/
theorem cancelThenTimeout_reports_timeout :
    [.cancel (.thread 0) (.fire ()), .cancel (.thread 0) (.kill () (.term .present)),
      .monitor () .deadline].Sublist cancelThenTimeout ∧
    ∃ w, Reaches Env.posix (fun _ => ⟨some 10, false, true⟩) cancelThenTimeout w ∧
      (w.runs ()).events = [.started 7, .exited (-1) .timedOut] ∧
      (w.runs ()).main = .finished (.ret (.error .timedOut)) :=
  ⟨by decide, Lts.exists_exec_of_any (by decide +kernel)⟩

end AerCore
