import AerCore.Cancel

/-!
# Runs that share a handle

Several runs, one after the other or at the same time, on clones of one
`CancelHandle`.  The flag `kill_fired` is sticky and belongs to the handle, not to
a run: a run reads `true` for its verdict as soon as the tree of *any* run has been
fired at.  So a run that starts after another one was cancelled reports a
cancellation although its own tree ended by itself, and its wiring block skips the
kill that the cancelled handle asks for.

Runs are kept apart exactly as long as `kill_fired` is set only for the run in
progress: each run is spawned while the flag is clear, and when the flag is set, no
other run is in progress but one that is about to be fired at itself.

## Main definitions

* `MainPc.inProgress` — a run between its spawn and its verdict.
* `Isolated` — the condition on a step.

## Main results

* `shared_handle_runs_are_apart` — **in every run whose steps are isolated, a
  cancellation is reported only for a tree that was killed for one**, and a run that
  starts on a cancelled handle with a live tree gets its kill.
* `reused_handle_reports_foreign_cancel` — a handle that is used twice.
-/

namespace AerCore

variable {ι : Type*}

/-! ### The condition -/

/-- The run is spawned and has not loaded `kill_fired` for its verdict. -/
def MainPc.inProgress : MainPc → Bool
  | .spawn _ | .toExited _ _ _ | .inExited _ _ | .leave _ | .guardKill _ _ | .guardReap _
  | .finished _ => false
  | _ => true

/-- A step of the spawn of run `i`. -/
def Label.spawns [DecidableEq ι] (i : ι) : Label ι → Bool
  | .main j (.spawn _) => decide (j = i)
  | _ => false

/-- A run is spawned while `kill_fired` is clear, and `kill_fired` is set for a run only
while no other one is in progress, but one that is about to be fired at itself. -/
structure Isolated [DecidableEq ι] (cfg : ι → RunConfig) (w : World ι) (l : Label ι) : Prop where
  /-- A run starts on a handle that has not fired. -/
  start : ∀ i, l.spawns i = true → (cfg i).cancel = true → w.handle.killFired = false
  /-- A handle fires at the only run in progress. -/
  fire : ∀ i j, l.fires i = true → w.handle.killFired = false → j ≠ i →
    (cfg j).cancel = true → (w.runs j).main.inProgress = true → Firing w j

/-! ### What a run reports -/

section Moves

variable {env : Env} {c : RunConfig} {i : ι} {hd hd' : CancelHandle ι} {r r' : Run} {a : MainAct}

theorem MainEdge.inProgress {m m' : MainPc} (h : MainEdge env c m a m')
    (hm : m'.inProgress = true) : m.inProgress = true ∨ ∃ s, a = .spawn s := by
  cases h with
  | spawnMore | spawnOk | spawnFailed => exact .inr ⟨_, rfl⟩
  | _ => first | exact .inl rfl | cases hm

theorem MainEdge.of_toExited {m : MainPc} {code : ℤ} {t cn : Bool}
    (h : MainEdge env c m a (.toExited code t cn)) :
    a = .loadKillFired cn ∧ m.inProgress = true ∧ m.judging = true := by
  cases h
  exact ⟨rfl, rfl, rfl⟩

theorem exitReason_eq_cancelRequested {t cn : Bool} (h : exitReason t cn = .cancelRequested) :
    cn = true := by
  cases t <;> cases cn <;> first | rfl | cases h

end Moves

/-! ### Whole runs -/

section Runs

variable [DecidableEq ι] {env : Env} {cfg : ι → RunConfig} {tr : List (Label ι)} {w : World ι}

/-- A run that may come to report a cancellation has been found alive on behalf of one. -/
structure Apart (cfg : ι → RunConfig) (tr : List (Label ι)) (w : World ι) (i : ι) : Prop where
  /-- While it is in progress, `kill_fired` is about its own tree. -/
  own : (cfg i).cancel = true → (w.runs i).main.inProgress = true →
    w.handle.killFired = true → tr.any (Label.probesAlive i) = true
  /-- When it has decided for a cancellation. -/
  verdict : ∀ code t, (w.runs i).main = .toExited code t true →
    tr.any (Label.probesAlive i) = true ∧ .main i .clear ∈ tr
  /-- When it has reported one. -/
  event : ∀ code, .exited code .cancelRequested ∈ (w.runs i).events →
    tr.any (Label.probesAlive i) = true ∧ .main i .clear ∈ tr

omit [DecidableEq ι] in
theorem any_concat_of_any {p : Label ι → Bool} {l : Label ι} (h : tr.any p = true) :
    (tr ++ [l]).any p = true := by
  rw [List.any_append, h, Bool.true_or]

/-- In a run of isolated steps, `kill_fired` is about every run in progress. -/
theorem apart_own_move {w' : World ι} {l : Label ι} {i : ι} (hw : Reaches env cfg tr w)
    (hstep : step env cfg w l = some w') (hiso : Isolated cfg w l) (ha : Apart cfg tr w i)
    (hc : (cfg i).cancel = true) (hp : (w'.runs i).main.inProgress = true)
    (hk : w'.handle.killFired = true) : (tr ++ [l]).any (Label.probesAlive i) = true := by
  have hprogress : (w.runs i).main.inProgress = true ∨ ∃ s, l = .main i (.spawn s) := by
    rcases mainMove_or_stays hstep i with ⟨a, rfl, h⟩ | ⟨-, hm⟩
    · exact (h.edge.inProgress hp).imp_right fun ⟨s, hs⟩ => ⟨s, by rw [hs]⟩
    · exact .inl (hm ▸ hp)
  rcases hprogress with hp₀ | ⟨s, rfl⟩
  · by_cases hk₀ : w.handle.killFired = true
    · exact any_concat_of_any (ha.own hc hp₀ hk₀)
    · -- the flag is set by this step
      obtain ⟨j, hj⟩ := ((handleMove_of_step hstep).killFired.mp hk).resolve_left hk₀
      have hfiring : Firing w i := by
        by_cases hij : i = j
        · subst hij
          cases triggerMove_of_step hstep i with
          | fire _ _ firing => exact firing
          | probe _ fires | kill _ _ fires | other _ fires => rw [fires] at hj; cases hj
        · exact hiso.fire j i hj (Bool.eq_false_iff.mpr hk₀) hij hc hp₀
      exact any_concat_of_any ((triggered_of_reaches hw i).alive.mpr (.inl hfiring))
  · -- the run is spawned while the flag is clear
    have hk₀ := hiso.start i (by simp [Label.spawns]) hc
    rcases (handleMove_of_step hstep).killFired.mp hk with hk₁ | ⟨j, hj⟩
    · rw [hk₀] at hk₁; cases hk₁
    · cases hj

theorem apart_move {w' : World ι} {l : Label ι} {i : ι} (hw : Reaches env cfg tr w)
    (hstep : step env cfg w l = some w') (hiso : Isolated cfg w l) (ha : Apart cfg tr w i) :
    Apart cfg (tr ++ [l]) w' i := by
  have hkeep : tr.any (Label.probesAlive i) = true ∧ .main i .clear ∈ tr →
      (tr ++ [l]).any (Label.probesAlive i) = true ∧ .main i .clear ∈ tr ++ [l] := fun h =>
    ⟨any_concat_of_any h.1, List.mem_append_left _ h.2⟩
  refine ⟨apart_own_move hw hstep hiso ha, ?_, ?_⟩
  · intro code t hm
    rcases mainMove_or_stays hstep i with ⟨a, -, h⟩ | ⟨-, hstays⟩
    · -- the verdict is decided by the load, while the run is in progress
      obtain ⟨rfl, hp, hjudge⟩ := (hm ▸ h.edge).of_toExited
      obtain ⟨hc, hk⟩ := Bool.and_eq_true_iff.mp h.killFired_eq
      exact hkeep ⟨ha.own hc hp hk, (progress_of_reaches hw i).judging hc hjudge⟩
    · exact hkeep (ha.verdict code t (hstays ▸ hm))
  · intro code he
    rcases (runMove_of_step hstep i).exited_mem he with he | ⟨os, t, cn, hm, -, hreason⟩
    · exact hkeep (ha.event code he)
    · obtain rfl := exitReason_eq_cancelRequested hreason.symm
      exact hkeep (ha.verdict os t hm)

theorem apart_of_reaches (h : Reaches env cfg tr w)
    (hiso : Lts.Along (step env cfg) (Isolated cfg) (World.init ι env) tr) (i : ι) :
    Apart cfg tr w i := by
  refine Lts.exec_invariant_along (P := fun tr w => Apart cfg tr w i) ?_ ?_ h hiso
  · refine ⟨fun _ h => ?_, fun _ _ h => ?_, fun _ h => ?_⟩ <;> cases h
  · intro tr w l w' hw ha hC hstep
    exact apart_move hw hstep hC ha

/-! ### A run on a cancelled handle -/

/-- A run that is still in `spawn` has not loaded `cancelled`. -/
theorem not_loaded_of_spawning (h : Reaches env cfg tr w) {i : ι} {s : SpawnPc}
    (hm : (w.runs i).main = .spawn s) (b : Bool) : .main i (.loadCancelled b) ∉ tr := by
  refine Lts.exec_invariant (P := fun tr w => ∀ s, (w.runs i).main = .spawn s →
    .main i (.loadCancelled b) ∉ tr) ?_ ?_ h s hm
  · intro _ _ h
    cases h
  · intro tr w l w' _ ih hstep s hm
    simp only [List.mem_append, List.mem_singleton, not_or]
    rcases mainMove_or_stays hstep i with ⟨a, rfl, h⟩ | ⟨hne, hstays⟩
    · obtain ⟨⟨s₀, hs₀⟩, x, rfl⟩ := (hm ▸ h.edge).of_spawn
      exact ⟨ih s₀ hs₀, by simp⟩
    · exact ⟨ih s (hstays ▸ hm), (hne _).symm⟩

/-- A run that is spawned on a cancelled handle finds it cancelled. -/
theorem not_loaded_false (h : Reaches env cfg tr w) {i : ι} {k : CallerId ι} {a : SpawnAct}
    (hab : [.cancel k (.swap false), .main i (.spawn a)].Sublist tr) :
    .main i (.loadCancelled false) ∉ tr := by
  intro hload
  obtain ⟨l₁, l₂, l₃, w₁, w₂, w₃, w₄, rfl, h₁, h₂, h₃, hspawn, -⟩ := Lts.exec_of_sublist_pair h hab
  rcases List.mem_append.mp hload with hl | hl
  · -- a load before the swap would be a load before the spawn
    have hreach : Reaches env cfg (l₁ ++ (.cancel k (.swap false) :: l₂)) w₃ :=
      Lts.exec_append_eq_some.mpr ⟨w₁, h₁, by simp [h₂, h₃]⟩
    have hm : ∃ s, (w₃.runs i).main = .spawn s := by
      rcases mainMove_or_stays hspawn i with ⟨_, hl, h⟩ | ⟨hne, -⟩
      · cases hl
        exact h.edge.spawning
      · exact absurd rfl (hne _)
    obtain ⟨s, hs⟩ := hm
    exact not_loaded_of_spawning hreach hs false (List.mem_append_left _ hl)
  · have hmem := (List.mem_cons.mp hl).resolve_left (by simp)
    have := loadCancelled_of_swap (i := i) (k := k) h
      (((List.singleton_sublist.mpr hmem).cons_cons _).trans (List.sublist_append_right _ _))
    cases this

omit [DecidableEq ι] in
/-- How the run thread comes to the end of its wiring block. -/
theorem MainEdge.to_startMonitor {c : RunConfig} {m : MainPc} {a : MainAct}
    (h : MainEdge env c m a .startMonitor) :
    c.cancel = false ∨ a = .loadCancelled false ∨ (m = .loadFired ∧ a = .loadFired true) ∨
      a = .probe .absent ∨ ∃ p, m = .kill p := by
  cases h with
  | startedPlain cancel => exact .inl cancel
  | notCancelled => exact .inr (.inl rfl)
  | hasFired => exact .inr (.inr (.inl ⟨rfl, rfl⟩))
  | probeDead => exact .inr (.inr (.inr (.inl rfl)))
  | killDone => exact .inr (.inr (.inr (.inr ⟨_, rfl⟩)))

omit [DecidableEq ι] in
theorem MainEdge.of_startMonitor {c : RunConfig} {m m' : MainPc} {ok : Bool}
    (h : MainEdge env c m (.startMonitor ok) m') : m = .startMonitor := by
  cases h <;> rfl

omit [DecidableEq ι] in
theorem MainMove.fired_eq {c : RunConfig} {i : ι} {hd hd' : CancelHandle ι} {r r' : Run}
    {b : Bool} (h : MainMove env c i hd r (.loadFired b) hd' r') : hd.killFired = b := by
  cases h
  rfl

/-- A run that finds the handle cancelled and its tree alive has been fired at, or is
about to be, when its wiring block ends. -/
theorem alive_of_wired (h : Reaches env cfg tr w)
    (hiso : Lts.Along (step env cfg) (Isolated cfg) (World.init ι env) tr) {i : ι}
    (hc : (cfg i).cancel = true) (hload : .main i (.loadCancelled false) ∉ tr)
    (hprobe : ∀ x, .main i (.probe x) ∈ tr → x ≠ .absent) :
    ((w.runs i).main = .startMonitor → tr.any (Label.probesAlive i) = true) ∧
      ∀ ok, .main i (.startMonitor ok) ∈ tr → tr.any (Label.probesAlive i) = true := by
  have key := Lts.exec_invariant_along
    (P := fun tr w => Apart cfg tr w i ∧ (.main i (.loadCancelled false) ∉ tr →
      (∀ x, .main i (.probe x) ∈ tr → x ≠ .absent) →
      ((w.runs i).main = .startMonitor → tr.any (Label.probesAlive i) = true) ∧
        ∀ ok, .main i (.startMonitor ok) ∈ tr → tr.any (Label.probesAlive i) = true))
    ?_ ?_ h hiso
  · exact key.2 hload hprobe
  · refine ⟨⟨fun _ h => ?_, fun _ _ h => ?_, fun _ h => ?_⟩, fun _ _ =>
      ⟨fun h => ?_, fun _ h => ?_⟩⟩ <;> cases h
  · rintro tr w l w' hw ⟨ha, ih⟩ hC hstep
    refine ⟨apart_move hw hstep hC ha, fun hload hprobe => ?_⟩
    simp only [List.mem_append, List.mem_singleton, not_or] at hload hprobe
    obtain ⟨hpc, hlabel⟩ := ih hload.1 fun x hx => hprobe x (.inl hx)
    have hframe : (w'.runs i).main = (w.runs i).main → (∀ ok, l ≠ .main i (.startMonitor ok)) →
        ((w'.runs i).main = .startMonitor → (tr ++ [l]).any (Label.probesAlive i) = true) ∧
          ∀ ok, .main i (.startMonitor ok) ∈ tr ++ [l] →
            (tr ++ [l]).any (Label.probesAlive i) = true := by
      intro hm hne
      refine ⟨fun h => any_concat_of_any (hpc (hm ▸ h)), fun ok hok => ?_⟩
      simp only [List.mem_append, List.mem_singleton, (hne ok).symm, or_false] at hok
      exact any_concat_of_any (hlabel ok hok)
    rcases mainMove_or_stays hstep i with ⟨a, rfl, h⟩ | ⟨hne, hm⟩
    · refine ⟨fun hm => any_concat_of_any ?_, fun ok hok => any_concat_of_any ?_⟩
      · rcases (hm ▸ h.edge).to_startMonitor with hc' | rfl | ⟨hm', rfl⟩ | rfl | ⟨p, hp⟩
        · rw [hc] at hc'; cases hc'
        · exact absurd rfl hload.2
        · exact ha.own hc (by rw [hm']; rfl) h.fired_eq
        · exact absurd rfl (hprobe _ (.inr rfl))
        · have htrig := triggered_of_reaches hw i
          exact htrig.alive.mpr (.inr (htrig.fired.mpr (.inl (.inl ⟨p, hp⟩))))
      · rcases List.mem_append.mp hok with hok | hok
        · exact hlabel ok hok
        · obtain ⟨-, rfl⟩ := Label.main.inj (List.mem_singleton.mp hok)
          exact hpc h.edge.of_startMonitor
    · exact hframe hm fun ok => hne _

/-- **Runs that share a handle do not contaminate each other**, as long as every step is
isolated: a run reports a cancellation only if its own tree was killed for one, and a run
that is spawned on a cancelled handle, and whose wiring block does not find its tree gone,
gets its kill. -/
theorem shared_handle_runs_are_apart (h : Reaches env cfg tr w)
    (hiso : Lts.Along (step env cfg) (Isolated cfg) (World.init ι env) tr) (i : ι) :
    ((∃ code, .exited code .cancelRequested ∈ (w.runs i).events) ∨
        (w.runs i).main = .finished (.ret (.error .cancelled)) →
      ∃ l ∈ tr, l.cancelKills i = true) ∧
    ((cfg i).cancel = true → ∀ k a ok,
      [.cancel k (.swap false), .main i (.spawn a)].Sublist tr →
      (∀ x, .main i (.probe x) ∈ tr → x ≠ .absent) → .main i (.startMonitor ok) ∈ tr →
      (Firing w i ∨ Killing w i ∨ ∃ l ∈ tr, l.cancelKills i = true) ∧
        (.main i .clear ∈ tr → ∃ l ∈ tr, l.cancelKills i = true)) := by
  have htrig := triggered_of_reaches h i
  have hreached : tr.any (Label.probesAlive i) = true →
      Firing w i ∨ Killing w i ∨ ∃ l ∈ tr, l.cancelKills i = true := by
    rw [htrig.alive, htrig.fired, List.any_eq_true]
    exact id
  have hkilled : tr.any (Label.probesAlive i) = true → .main i .clear ∈ tr →
      ∃ l ∈ tr, l.cancelKills i = true := by
    intro ha hclear
    obtain ⟨hnf, hnk⟩ := quiet_of_cleared h hclear
    exact ((hreached ha).resolve_left hnf).resolve_left hnk
  refine ⟨fun hrep => ?_, fun hc k a ok hab hprobe hstart => ?_⟩
  · have hev : ∃ code, .exited code .cancelRequested ∈ (w.runs i).events := by
      refine hrep.elim id fun hret => ?_
      obtain ⟨k, hk⟩ := hasShape_of_returned h hret
      obtain rfl := hk.eq_cancelled
      obtain ⟨-, pid, chunks, -, he, -⟩ := hk
      exact ⟨-1, by rw [he]; simp⟩
    obtain ⟨code, he⟩ := hev
    obtain ⟨ha, hclear⟩ := (apart_of_reaches h hiso i).event code he
    exact hkilled ha hclear
  · have ha := (alive_of_wired h hiso hc (not_loaded_false h hab) hprobe).2 ok hstart
    exact ⟨hreached ha, hkilled ha⟩

end Runs

/-- Two runs on one handle, one after the other: the first exits by itself, then `cancel()`
finds the slot empty, and the second is spawned on the cancelled handle and killed by its
wiring block. -/
def cancelBetween : List (Label Bool) :=
  beginRun false 7 ++ waitNatural false 3 ++ endRun false false false ++
  [Label.cancel (.thread 0) (.swap false), .cancel (.thread 0) .lock, .cancel (.thread 0) .unlock,
    .main true (.spawn (.command (.ok 8))), .main true .started, .main true .startedReturns,
    .main true .wire, .main true (.loadCancelled true), .main true (.loadFired false),
    .main true (.probe .present), .main true .fire, .main true (.kill (.term .present)),
    .main true (.kill (.probe .present)), .main true (.kill (.clock true)),
    .main true (.kill (.kill .present)), .main true (.startMonitor true), .main true .callWait,
    .wait true (.startOut true), .wait true (.startErr true), .wait true (.childWait (.ok ())),
    .wait true (.killTree .absent), .drain true .stdout (.read .eof),
    .drain true .stderr (.read .eof), .wait true .joinOut, .wait true .joinErr,
    .main true .waitReturned] ++
  endRun true false true

/-- The second run gets the kill that the cancelled handle asks for, and reports it; the first
one reports nothing of the kind. -/
theorem cancelBetween_runs_are_apart :
    ∃ w, Reaches Env.posix (fun _ => ⟨none, false, true⟩) cancelBetween w ∧
      Lts.Along (step Env.posix fun _ => ⟨none, false, true⟩)
        (Isolated fun _ => ⟨none, false, true⟩) (World.init Bool Env.posix) cancelBetween ∧
      (w.runs false).main = .finished (.ret (.ok ())) ∧
      (w.runs true).main = .finished (.ret (.error .cancelled)) ∧
      [.cancel (.thread 0) (.swap false), .main true (.spawn (.command (.ok 8)))].Sublist
        cancelBetween ∧
      (∃ l ∈ cancelBetween, l.cancelKills true = true) ∧
      ¬∃ code, .exited code .cancelRequested ∈ (w.runs false).events := by
  obtain ⟨w, hw, hfirst, hret⟩ : ∃ w,
      Reaches Env.posix (fun _ => ⟨none, false, true⟩) cancelBetween w ∧
      (w.runs false).main = .finished (.ret (.ok ())) ∧
      (w.runs true).main = .finished (.ret (.error .cancelled)) :=
    Lts.exists_exec_of_any (by decide +kernel)
  -- when the second run is fired at, the first one is over
  have hiso : Lts.Along (step Env.posix fun _ => ⟨none, false, true⟩)
      (Isolated fun _ => ⟨none, false, true⟩) (World.init Bool Env.posix) cancelBetween := by
    refine Lts.Along.imp (C := fun w l => (∀ i, l.spawns i = true → w.handle.killFired = false) ∧
      ∀ i j, l.fires i = true → j ≠ i → (w.runs j).main.inProgress = false) ?_ (by decide +kernel)
    rintro w l ⟨hstart, hfire⟩
    refine ⟨fun i hl _ => hstart i hl, fun i j hl _ hne _ hprog => ?_⟩
    rw [hfire i j hl hne] at hprog
    cases hprog
  have hspawned :
      [.cancel (.thread 0) (.swap false), .main true (.spawn (.command (.ok 8)))].Sublist
        cancelBetween := by decide
  have halive : .main true (.probe .absent) ∉ cancelBetween := by decide
  have hnone : ∀ l ∈ cancelBetween, l.cancelKills false = false := by decide
  have hkill := ((shared_handle_runs_are_apart hw hiso true).2 rfl (.thread 0)
    (.command (.ok 8)) true hspawned (fun x hx hgone => halive (hgone ▸ hx)) (by decide)).2
    (by decide)
  refine ⟨w, hw, hiso, hfirst, hret, hspawned, hkill, fun hreport => ?_⟩
  obtain ⟨l, hl, hk⟩ := (shared_handle_runs_are_apart hw hiso false).1 (.inl hreport)
  rw [hnone l hl] at hk
  cases hk

/-! ### A handle that is used twice -/

/-- Two runs on one handle, one after the other: the first is cancelled, the second exits
by itself. -/
def reusedHandle : List (Label Bool) :=
  beginRun false 7 ++
  [.main false .callWait, .wait false (.startOut true), .wait false (.startErr true),
    .cancel (.thread 0) (.swap false), .cancel (.thread 0) .lock,
    .cancel (.thread 0) (.probe false .present), .cancel (.thread 0) (.fire false),
    .cancel (.thread 0) (.kill false (.term .present)), .proc false (.rootExit none),
    .wait false (.childWait (.ok ())), .wait false (.killTree .absent),
    .cancel (.thread 0) (.kill false (.probe .absent)),
    .cancel (.thread 0) (.kill false (.probe .absent)), .cancel (.thread 0) .unlock,
    .drain false .stdout (.read .eof), .drain false .stderr (.read .eof), .wait false .joinOut,
    .wait false .joinErr, .main false .waitReturned] ++
  endRun false false true ++
  [.main true (.spawn (.command (.ok 8))), .main true .started, .main true .startedReturns,
    .main true .wire, .main true (.loadCancelled true), .main true (.loadFired true),
    .main true (.startMonitor true)] ++
  waitNatural true 0 ++ endRun true false true

/-- The second run exits with code 0 and is reported as cancelled, although nobody killed
its tree, and although it started on a cancelled handle with a live tree. -/
theorem reused_handle_reports_foreign_cancel :
    ∃ w, Reaches Env.posix (fun _ => ⟨none, false, true⟩) reusedHandle w ∧
      (w.runs true).main = .finished (.ret (.error .cancelled)) ∧
      (w.runs true).events = [.started 8, .exited (-1) .cancelRequested] ∧
      (w.runs true).tree.root = .reaped (some 0) ∧
      (∀ l ∈ reusedHandle, l.cancelKills true = false) ∧
      [.cancel (.thread 0) (.swap false), .main true (.spawn (.command (.ok 8)))].Sublist
        reusedHandle := by
  obtain ⟨w, hw, hrest⟩ : ∃ w, Reaches Env.posix (fun _ => ⟨none, false, true⟩) reusedHandle w ∧
      (w.runs true).main = .finished (.ret (.error .cancelled)) ∧
      (w.runs true).events = [.started 8, .exited (-1) .cancelRequested] ∧
      (w.runs true).tree.root = .reaped (some 0) := Lts.exists_exec_of_any (by decide +kernel)
  exact ⟨w, hw, hrest.1, hrest.2.1, hrest.2.2, by decide, by decide⟩

end AerCore
