import AerCore.Verdict

/-!
# One run on a handle of its own

A single `run_with_cancel` and any number of threads that call `cancel()` on its
handle.  The store of the kill handle, the swap of `cancelled` and the load of
`cancelled` come in some order: if the swap comes before the load, the run thread
itself looks after the tree; if the lock is taken while the handle is wired, the
cancelling thread does.  Once the slot is cleared nobody can reach the tree any
more, so `kill_fired` is what the run thread reads for its verdict.

## Main definitions

* `SoleRun` — no other run uses the handle.
* `MainPc.wired`, `MainPc.afterClear` — where the slot is stored, and where it is cleared.

## Main results

* `slot_iff_wired` — the slot names the run exactly between its two stores.
* `quiet_after_clear` — after the slot is cleared nobody fires or kills.
* `cancellation_is_neither_lost_nor_late` — **no lost and no late cancellation**.
-/

namespace AerCore

variable {ι : Type*}

/-! ### The run thread around the slot -/

/-- The slot has been cleared, or the run ends without clearing it. -/
def MainPc.afterClear : MainPc → Bool
  | .stopMonitor _ | .loadTimedOut _ | .loadKillFired _ _ | .toExited _ _ _ | .inExited _ _
  | .leave _ | .guardKill _ _ | .guardReap _ | .finished _ => true
  | _ => false

/-- The slot holds the kill handle, or would with a handle. -/
def MainPc.wired : MainPc → Bool
  | .loadCancelled | .loadFired | .probe _ | .fire | .kill _ | .startMonitor | .openChannel
  | .dropTx | .startWait | .pump | .inChunk | .recvWait | .joinWait _ | .callWait | .inWait
  | .clear _ => true
  | _ => false

/-- The run thread is past the slot on its way to the verdict, or has given it. -/
def MainPc.judging : MainPc → Bool
  | .stopMonitor _ | .loadTimedOut _ | .loadKillFired _ _ | .toExited _ _ _ | .inExited _ _ => true
  | .leave (.ret res) | .guardKill _ (.ret res) | .guardReap (.ret res) | .finished (.ret res) =>
      isVerdict res
  | _ => false

/-- The stores to the slot among the labels, by the place of the run thread. -/
structure Progress (c : RunConfig) (i : ι) (tr : List (Label ι)) (m : MainPc) : Prop where
  /-- The slot is cleared once, late. -/
  cleared : .main i .clear ∈ tr → m.afterClear = true
  /-- With a handle, the slot is stored before the run goes on. -/
  wired : c.cancel = true → m.wired = true → .main i .wire ∈ tr
  /-- With a handle, the slot is cleared before the verdict. -/
  judging : c.cancel = true → m.judging = true → .main i .clear ∈ tr

section Moves

variable {env : Env} {c : RunConfig} {i : ι} {hd hd' : CancelHandle ι} {r r' : Run} {a : MainAct}
  {tr : List (Label ι)}

theorem MainEdge.afterClear {m m' : MainPc} (h : MainEdge env c m a m')
    (hm : m.afterClear = true ∨ a = .clear) : m'.afterClear = true := by
  cases h with
  | clear | stopMonitor | loadTimedOut | loadKillFired | exited | exitedRefused | exitedReturns
  | exitedPanics | dropArmed | dropDisarmed | guardMore | guardDone | guardReap => rfl
  | _ => rcases hm with hm | hm <;> cases hm

theorem MainEdge.wired {m m' : MainPc} (h : MainEdge env c m a m') (hm : m'.wired = true) :
    m.wired = true ∨ a = .wire ∨ c.cancel = false := by
  cases h with
  | wire => exact .inr (.inl rfl)
  | startedPlain cancel => exact .inr (.inr cancel)
  | _ => first | exact .inl rfl | cases hm

theorem judging_afterWait {res : Except AerError ℤ} (hres : WaitAnswer env r.tree r.output res)
    (hr : (r.afterWait c res).main.judging = true) : c.cancel = false := by
  cases res with
  | ok code =>
    simp only [Run.afterWait] at hr
    split at hr
    · cases hr
    · next hc => exact Bool.eq_false_iff.mpr hc
  | error e =>
    obtain ⟨e', rfl⟩ := hres
    cases hr

theorem MainMove.judging (h : MainMove env c i hd r a hd' r') (ha : Answered env r)
    (hr : r'.main.judging = true) : r.main.judging = true ∨ a = .clear ∨ c.cancel = false := by
  cases h with
  | clear => exact .inr (.inl rfl)
  | @joinWait res pc => exact .inr (.inr (judging_afterWait (ha.main res (by rw [pc]; rfl)).2 hr))
  | waitReturned pc returned =>
    have hw := ha.wait
    rw [returned] at hw
    exact .inr (.inr (judging_afterWait hw hr))
  | stopMonitor pc | loadTimedOut pc | loadKillFired pc | exited pc | exitedRefused pc
  | exitedReturns pc => exact .inl (by rw [pc]; rfl)
  | startedRefused pc he =>
    simp only [MainPc.judging, isVerdict_of_transition he] at hr
    cases hr
  | @dropLocals o pc =>
    refine .inl ?_
    rw [pc]
    cases o with
    | ret res =>
      simp only at hr
      split at hr <;> exact hr
    | unwound =>
      simp only at hr
      split at hr <;> cases hr
  | @guardMore _ _ _ _ o pc | @guardDone _ _ _ _ o pc | @guardReap o _ _ pc =>
    refine .inl ?_
    rw [pc]
    cases o with
    | ret res => exact hr
    | unwound => cases hr
  | startedReturns | loadCancelled | loadFired =>
    simp only at hr
    split at hr <;> cases hr
  | startMonitor | noMonitor =>
    simp only [RunConfig.afterMonitor] at hr
    split at hr <;> cases hr
  | _ => cases hr

theorem progress_move (h : MainMove env c i hd r a hd' r') (ha : Answered env r)
    (hp : Progress c i tr r.main) : Progress c i (tr ++ [.main i a]) r'.main where
  cleared := fun hm => by
    refine h.edge.afterClear ?_
    simp only [List.mem_append, List.mem_singleton, Label.main.injEq, true_and] at hm
    exact hm.imp hp.cleared Eq.symm
  wired := fun hc hw => by
    rcases h.edge.wired hw with hw | rfl | hc'
    · exact List.mem_append_left _ (hp.wired hc hw)
    · simp
    · rw [hc] at hc'; cases hc'
  judging := fun hc hj => by
    rcases h.judging ha hj with hj | rfl | hc'
    · exact List.mem_append_left _ (hp.judging hc hj)
    · simp
    · rw [hc] at hc'; cases hc'

theorem Progress.frame {m : MainPc} {l : Label ι} (hp : Progress c i tr m)
    (hl : ∀ a, l ≠ .main i a) : Progress c i (tr ++ [l]) m where
  cleared := fun hm => by
    simp only [List.mem_append, List.mem_singleton, (hl _).symm, or_false] at hm
    exact hp.cleared hm
  wired := fun hc hw => List.mem_append_left _ (hp.wired hc hw)
  judging := fun hc hj => List.mem_append_left _ (hp.judging hc hj)

end Moves

section Runs

variable [DecidableEq ι] {env : Env} {cfg : ι → RunConfig} {tr : List (Label ι)} {w : World ι}

theorem progress_of_reaches (h : Reaches env cfg tr w) (i : ι) :
    Progress (cfg i) i tr (w.runs i).main := by
  refine Lts.exec_invariant (P := fun tr w => Progress (cfg i) i tr (w.runs i).main) ?_ ?_ h
  · refine ⟨fun h => ?_, fun _ h => ?_, fun _ h => ?_⟩ <;> cases h
  · intro tr w l w' hw hp hstep
    rcases mainMove_or_stays hstep i with ⟨a, rfl, h⟩ | ⟨hne, hm⟩
    · exact progress_move h (answered_of_reaches hw i) hp
    · rw [hm]
      exact hp.frame hne

/-! ### The slot -/

/-- No other run uses the handle. -/
def SoleRun (cfg : ι → RunConfig) (i : ι) : Prop := ∀ j, j ≠ i → (cfg j).cancel = false

theorem SoleRun.eq {i j : ι} (hs : SoleRun cfg i) (hj : (cfg j).cancel = true) : j = i := by
  by_contra hne
  rw [hs j hne] at hj
  cases hj

/-- A run is found in the slot only between its two stores to it. -/
theorem wired_of_slot (h : Reaches env cfg tr w) {i : ι} (hk : w.handle.kill = some i) :
    .main i .wire ∈ tr ∧ .main i .clear ∉ tr := by
  refine Lts.exec_invariant (P := fun tr w => w.handle.kill = some i →
    .main i .wire ∈ tr ∧ .main i .clear ∉ tr) ?_ ?_ h hk
  · intro h
    cases h
  · intro tr w l w' hw ih hstep hk
    have hframe : w'.handle.kill = w.handle.kill → l ≠ .main i .clear →
        .main i .wire ∈ tr ++ [l] ∧ .main i .clear ∉ tr ++ [l] := by
      intro hkeep hne
      obtain ⟨hwire, hclear⟩ := ih (hkeep ▸ hk)
      exact ⟨List.mem_append_left _ hwire, by simp [hclear, hne.symm]⟩
    cases handleMove_of_step hstep with
    | @main j a _ _ h =>
      cases h with
      | wire pc =>
        cases hk
        have hclear : .main i .clear ∉ tr := fun hm => by
          have := (progress_of_reaches hw i).cleared hm
          rw [pc] at this
          cases this
        simp [hclear]
      | clear => cases hk
      | _ => exact hframe rfl (by simp)
    | cancel h => exact hframe (by cases h <;> rfl) (by simp)
    | inner hl hh => exact hframe (by rw [hh]) (by rintro rfl; cases hl)

/-- **On a handle of its own, a run is in the slot exactly between its two stores.** -/
theorem slot_iff_wired (h : Reaches env cfg tr w) {i : ι} (hs : SoleRun cfg i) :
    w.handle.kill = some i ↔ .main i .wire ∈ tr ∧ .main i .clear ∉ tr := by
  refine ⟨wired_of_slot h, fun ⟨hwire, hclear⟩ => ?_⟩
  refine Lts.exec_invariant (P := fun tr w => .main i .wire ∈ tr → .main i .clear ∉ tr →
    w.handle.kill = some i) ?_ ?_ h hwire hclear
  · intro h
    cases h
  · intro tr w l w' hw ih hstep hwire hclear
    simp only [List.mem_append, List.mem_singleton, not_or] at hwire hclear
    have hframe : w'.handle.kill = w.handle.kill → l ≠ .main i .wire →
        w'.handle.kill = some i := by
      intro hkeep hne
      rw [hkeep]
      exact ih (hwire.resolve_right hne.symm) hclear.1
    cases handleMove_of_step hstep with
    | @main j a _ _ h =>
      -- whoever is at a store to the slot is this run
      have hj : (w.runs j).main.onHandle = true → j = i := fun hon =>
        hs.eq (cancel_of_onHandle hw hon)
      cases h with
      | wire pc => rw [hj (by rw [pc]; rfl)]; rfl
      | clear pc => exact absurd (by rw [hj (by rw [pc]; rfl)]) hclear.2
      | _ => exact hframe rfl (by simp)
    | cancel h => exact hframe (by cases h <;> rfl) (by simp)
    | inner hl hh => exact hframe (by rw [hh]) (by rintro rfl; cases hl)

/-- After a run has cleared the slot nobody fires at or kills its tree on behalf of
`cancel()`. -/
theorem quiet_of_cleared (h : Reaches env cfg tr w) {i : ι} (hclear : .main i .clear ∈ tr) :
    ¬Firing w i ∧ ¬Killing w i := by
  have hafter := (progress_of_reaches h i).cleared hclear
  have hslot : ∀ k, (w.callers k).target ≠ some i := fun k hk =>
    (wired_of_slot h ((guarded_of_reaches h).slot k i hk)).2 hclear
  constructor
  · rintro (hm | ⟨k, hk⟩)
    · rw [hm] at hafter; cases hafter
    · exact hslot k (by rw [hk]; rfl)
  · rintro (⟨p, hm⟩ | ⟨k, p, hk⟩)
    · rw [hm] at hafter; cases hafter
    · exact hslot k (by rw [hk]; rfl)

/-- On a handle of its own, nobody fires at or kills any tree after the slot is cleared. -/
theorem quiet_after_clear (h : Reaches env cfg tr w) {i : ι} (hs : SoleRun cfg i)
    (hclear : .main i .clear ∈ tr) (j : ι) : ¬Firing w j ∧ ¬Killing w j := by
  by_cases hj : j = i
  · rw [hj]
    exact quiet_of_cleared h hclear
  · -- another run is never fired at
    have hno : (w.runs j).main.onHandle ≠ true := fun hon => hj (hs.eq (cancel_of_onHandle h hon))
    have hslot : ∀ k, (w.callers k).target ≠ some j := fun k hk =>
      hj (hs.eq (cancel_of_slot h ((guarded_of_reaches h).slot k j hk)))
    constructor
    · rintro (hm | ⟨k, hk⟩)
      · exact hno (by rw [hm]; rfl)
      · exact hslot k (by rw [hk]; rfl)
    · rintro (⟨p, hm⟩ | ⟨k, p, hk⟩)
      · exact hno (by rw [hm]; rfl)
      · exact hslot k (by rw [hk]; rfl)

/-- A step after the slot is cleared neither stores `kill_fired` nor kills. -/
theorem step_after_clear (h : Reaches env cfg tr w) {i : ι} (hs : SoleRun cfg i)
    (hclear : .main i .clear ∈ tr) {l : Label ι} {w' : World ι}
    (hstep : step env cfg w l = some w') (j : ι) :
    l.fires j = false ∧ l.cancelKills j = false := by
  obtain ⟨hf, hk⟩ := quiet_after_clear h hs hclear j
  cases triggerMove_of_step hstep j with
  | probe _ fires kills | other _ fires kills => exact ⟨fires, kills⟩
  | fire _ _ firing => exact absurd firing hf
  | kill _ _ _ killing => exact absurd killing hk

/-- `kill_fired` does not change any more after the slot is cleared. -/
theorem killFired_after_clear (h : Reaches env cfg tr w) {i : ι} (hs : SoleRun cfg i)
    (hclear : .main i .clear ∈ tr) {l : Label ι} {w' : World ι}
    (hstep : step env cfg w l = some w') : w'.handle.killFired = w.handle.killFired := by
  rw [Bool.eq_iff_iff, (handleMove_of_step hstep).killFired]
  simp [(step_after_clear h hs hclear hstep _).1]

/-- On a handle of its own, `kill_fired` is about this run. -/
theorem SoleRun.killFired_iff {i : ι} (hs : SoleRun cfg i) (h : Reaches env cfg tr w) :
    w.handle.killFired = true ↔ tr.any (Label.fires i) = true := by
  rw [AerCore.killFired_iff h]
  refine ⟨fun ⟨j, hj⟩ => ?_, fun hf => ⟨i, hf⟩⟩
  rw [← hs.eq (cancel_of_fires h hj)]
  exact hj

/-! ### The swap -/

/-- Only the first swap changes `cancelled`. -/
theorem HandleMove.cancelled {w' : World ι} {l : Label ι} (h : HandleMove env cfg w l w') :
    w'.handle.cancelled = true ↔
      w.handle.cancelled = true ∨ ∃ k, l = .cancel k (.swap false) := by
  cases h with
  | main h => cases h <;> simp
  | cancel h => cases h <;> simp
  | inner hl hh =>
    rw [hh]
    cases l with
    | main | cancel => cases hl
    | _ => simp

/-- `cancelled` is set exactly when a swap has returned `false`. -/
theorem cancelled_iff (h : Reaches env cfg tr w) :
    w.handle.cancelled = true ↔ ∃ k, .cancel k (.swap false) ∈ tr := by
  refine Lts.exec_invariant
    (P := fun tr w => w.handle.cancelled = true ↔ ∃ k, .cancel k (.swap false) ∈ tr) ?_ ?_ h
  · simp [World.init, CancelHandle.new]
  · intro tr w l w' _ ih hstep
    simp only [(handleMove_of_step hstep).cancelled, ih, List.mem_append, List.mem_singleton,
      exists_or, eq_comm]

/-- Only one swap returns `false`. -/
theorem first_swap_unique (h : Reaches env cfg tr w) {k k' : CallerId ι}
    (hk : .cancel k (.swap false) ∈ tr) (hk' : .cancel k' (.swap false) ∈ tr) : k = k' := by
  refine Lts.exec_invariant (P := fun tr _ => ∀ k k', .cancel k (.swap false) ∈ tr →
    .cancel k' (.swap false) ∈ tr → k = k') ?_ ?_ h k k' hk hk'
  · intro k k' h
    cases h
  · intro tr w l w' hw ih hstep k k' hk hk'
    -- a swap that returns `false` is the first one
    have hfirst : ∀ {m}, l = .cancel m (.swap false) → ∀ m', .cancel m' (.swap false) ∉ tr := by
      rintro m rfl m' hm'
      have hc : w.handle.cancelled = true := (cancelled_iff hw).mpr ⟨m', hm'⟩
      cases handleMove_of_step hstep with
      | cancel h =>
        cases h with
        | swapFirst _ first => rw [first] at hc; cases hc
      | inner hl => cases hl
    simp only [List.mem_append, List.mem_singleton] at hk hk'
    rcases hk with hk | hk <;> rcases hk' with hk' | hk'
    · exact ih k k' hk hk'
    · exact absurd hk (hfirst hk'.symm k)
    · exact absurd hk' (hfirst hk.symm k')
    · rw [← hk] at hk'
      cases hk'
      rfl

/-- The run thread has found `cancelled` set. -/
def MainPc.sawCancelled : MainPc → Bool
  | .loadFired | .probe _ | .fire | .kill _ => true
  | _ => false

omit [DecidableEq ι] in
theorem MainEdge.sawCancelled {c : RunConfig} {m m' : MainPc} {a : MainAct}
    (h : MainEdge env c m a m') (hm : m'.sawCancelled = true) :
    m.sawCancelled = true ∨ a = .loadCancelled true := by
  cases h with
  | isCancelled => exact .inr rfl
  | _ => first | exact .inl rfl | cases hm

omit [DecidableEq ι] in
theorem MainMove.cancelled_eq {c : RunConfig} {i : ι} {hd hd' : CancelHandle ι} {r r' : Run}
    {b : Bool} (h : MainMove env c i hd r (.loadCancelled b) hd' r') : hd.cancelled = b := by
  cases h
  rfl

theorem cancelled_of_sawCancelled (h : Reaches env cfg tr w) {i : ι}
    (hm : (w.runs i).main.sawCancelled = true) : w.handle.cancelled = true := by
  refine Lts.exec_invariant
    (P := fun _ w => (w.runs i).main.sawCancelled = true → w.handle.cancelled = true) ?_ ?_ h hm
  · intro h
    cases h
  · intro _ w l w' _ ih hstep hm
    rw [(handleMove_of_step hstep).cancelled]
    refine .inl ?_
    rcases mainMove_or_stays hstep i with ⟨a, -, h⟩ | ⟨-, hstays⟩
    · rcases h.edge.sawCancelled hm with hsaw | rfl
      · exact ih hsaw
      · exact h.cancelled_eq
    · exact ih (hstays ▸ hm)

/-- A probe on behalf of `cancel()` is made after the first swap. -/
theorem cancelled_of_cancelProbes (h : Reaches env cfg tr w) {l : Label ι} {w' : World ι} {i : ι}
    (hstep : step env cfg w l = some w') (hl : l.cancelProbes i = true) :
    w.handle.cancelled = true := by
  cases handleMove_of_step hstep with
  | main h' =>
    cases h' with
    | probeMore pc | probeAlive pc | probeDead pc =>
      exact cancelled_of_sawCancelled h (by rw [pc]; rfl)
    | _ => cases hl
  | cancel h' =>
    have hne : ∀ k, w.callers k ≠ .idle → w.handle.cancelled = true := fun k hk => by
      by_contra hc
      exact hk ((guarded_of_reaches h).idle (Bool.eq_false_iff.mpr hc) k)
    cases h' with
    | probeMore pc | probeAlive pc | probeDead pc => exact hne _ (by rw [pc]; simp)
    | _ => cases hl
  | inner hi =>
    cases l with
    | main | cancel => cases hi
    | _ => cases hl

theorem probe_after_swap (h : Reaches env cfg tr w) {l : Label ι} {i : ι} {k : CallerId ι}
    (hk : .cancel k (.swap false) ∈ tr) (hl : l ∈ tr) (hp : l.cancelProbes i = true) :
    [.cancel k (.swap false), l].Sublist tr := by
  have key : ∃ k, [.cancel k (.swap false), l].Sublist tr := by
    refine Lts.exec_invariant (P := fun tr _ => l ∈ tr →
      ∃ k, [Label.cancel k (.swap false), l].Sublist tr) ?_ ?_ h hl
    · intro h
      cases h
    · intro tr w l' w' hw ih hstep hl
      rcases List.mem_append.mp hl with hl | hl
      · obtain ⟨k, hk⟩ := ih hl
        exact ⟨k, hk.trans (List.sublist_append_left _ _)⟩
      · obtain rfl := List.mem_singleton.mp hl
        obtain ⟨k, hk⟩ := (cancelled_iff hw).mp (cancelled_of_cancelProbes hw hstep hp)
        exact ⟨k, (List.singleton_sublist.mpr hk).append (List.Sublist.refl [l])⟩
  obtain ⟨k', hk'⟩ := key
  rwa [first_swap_unique h hk (hk'.subset List.mem_cons_self)]

/-- The tree of run `i` has been probed on behalf of `cancel()`, or its run thread is
about to do so. -/
def Probed (i : ι) (tr : List (Label ι)) (w : World ι) : Prop :=
  (w.runs i).main = .loadFired ∨ (∃ p, (w.runs i).main = .probe p) ∨
    tr.any (Label.cancelProbes i) = true

omit [DecidableEq ι] in
theorem MainMove.of_loadFired {c : RunConfig} {i : ι} {hd hd' : CancelHandle ι} {r r' : Run}
    {a : MainAct} (h : MainMove env c i hd r a hd' r') (hr : r.main = .loadFired) :
    hd.killFired = true ∨ ∃ p, r'.main = .probe p := by
  cases h with
  | loadFired => simp only; split <;> simp_all
  | _ pc => rw [hr] at pc; cases pc

omit [DecidableEq ι] in
theorem MainEdge.of_probe {c : RunConfig} {p : ProbePc} {a : MainAct} {m' : MainPc}
    (h : MainEdge env c (.probe p) a m') : ∃ x, a = .probe x := by
  cases h <;> exact ⟨_, rfl⟩

omit [DecidableEq ι] in
theorem MainEdge.of_loadCancelled {c : RunConfig} {m m' : MainPc}
    (h : MainEdge env c m (.loadCancelled true) m') : m' = .loadFired := by
  cases h
  rfl

/-- On a handle of its own, a store of `kill_fired` was preceded by a probe. -/
theorem SoleRun.probed_of_killFired {i : ι} (hs : SoleRun cfg i) (h : Reaches env cfg tr w)
    (hk : w.handle.killFired = true) : tr.any (Label.cancelProbes i) = true := by
  have ha := (triggered_of_reaches h i).alive.mpr (.inr ((hs.killFired_iff h).mp hk))
  rw [List.any_eq_true] at ha ⊢
  obtain ⟨l, hl, hp⟩ := ha
  refine ⟨l, hl, ?_⟩
  unfold Label.probesAlive at hp
  split at hp
  · exact decide_eq_true (of_decide_eq_true hp).1
  · exact decide_eq_true (of_decide_eq_true hp).1
  · cases hp

/-- A run thread that found `cancelled` set sees to it that the tree is probed. -/
theorem probed_of_loadCancelled (h : Reaches env cfg tr w) {i : ι} (hs : SoleRun cfg i)
    (hl : .main i (.loadCancelled true) ∈ tr) : Probed i tr w := by
  refine Lts.exec_invariant (P := fun tr w => .main i (.loadCancelled true) ∈ tr → Probed i tr w)
    ?_ ?_ h hl
  · intro h
    cases h
  · intro tr w l w' hw ih hstep hl
    have hframe : (w'.runs i).main = (w.runs i).main → l ≠ .main i (.loadCancelled true) →
        Probed i (tr ++ [l]) w' := by
      intro hm hne
      have := ih (by simpa [hne.symm] using hl)
      unfold Probed at this ⊢
      rw [hm, List.any_append, Bool.or_eq_true]
      exact this.imp_right (Or.imp_right .inl)
    rcases mainMove_or_stays hstep i with ⟨a, rfl, h⟩ | ⟨hne, hm⟩
    · unfold Probed
      rw [List.any_append, Bool.or_eq_true]
      by_cases ha : a = .loadCancelled true
      · subst ha
        exact .inl h.edge.of_loadCancelled
      · rcases ih (by simpa [Ne.symm ha] using hl) with hm | ⟨p, hm⟩ | hp
        · rcases h.of_loadFired hm with hk | hp
          · exact .inr (.inr (.inl (hs.probed_of_killFired hw hk)))
          · exact .inr (.inl hp)
        · obtain ⟨x, rfl⟩ := (hm ▸ h.edge).of_probe
          exact .inr (.inr (.inr (by simp [Label.cancelProbes])))
        · exact .inr (.inr (.inl hp))
    · exact hframe hm (hne _)

/-- A caller that has found the run in the slot probes its tree before it goes on. -/
theorem probed_of_caller {w' : World ι} {k : CallerId ι} {i : ι} {p : ProbePc}
    (hk : w.callers k = .probe i p) (h : Lts.exec (step env cfg) w tr = some w') :
    (∃ p, w'.callers k = .probe i p) ∨ tr.any (Label.cancelProbes i) = true := by
  refine Lts.exec_invariant (P := fun tr w' => (∃ p, w'.callers k = .probe i p) ∨
    tr.any (Label.cancelProbes i) = true) (.inl ⟨p, hk⟩) ?_ h
  rintro tr w l w' - (⟨p, hp⟩ | hp) hstep
  · cases handleMove_of_step hstep with
    | main h => exact .inl ⟨p, hp⟩
    | @cancel k' a _ h =>
      by_cases hkk : k = k'
      · subst hkk
        refine .inr ?_
        cases h with
        | @probeMore j _ _ _ pc | @probeAlive j _ _ pc | @probeDead j _ _ pc =>
          rw [hp] at pc
          cases pc
          simp [Label.cancelProbes]
        | _ pc => rw [hp] at pc; cases pc
      · exact .inl ⟨p, (h.callers_ne hkk).trans hp⟩
    | inner _ _ hc => exact .inl ⟨p, by rw [hc]; exact hp⟩
  · exact .inr (by rw [List.any_append, hp, Bool.true_or])

/-! ### No lost and no late cancellation -/

/-- From the moment the slot is cleared, no thread stores `kill_fired` or kills on
behalf of `cancel()`. -/
theorem quiet_for_ever (h : Reaches env cfg tr w) {i : ι} (hs : SoleRun cfg i)
    (hclear : .main i .clear ∈ tr) {tr₂ : List (Label ι)} {w₂ : World ι}
    (hrun : Lts.exec (step env cfg) w tr₂ = some w₂) :
    w₂.handle.killFired = w.handle.killFired ∧
      ∀ l ∈ tr₂, ∀ j, l.fires j = false ∧ l.cancelKills j = false := by
  refine Lts.exec_invariant (P := fun tr₂ w₂ => w₂.handle.killFired = w.handle.killFired ∧
    ∀ l ∈ tr₂, ∀ j, l.fires j = false ∧ l.cancelKills j = false) ?_ ?_ hrun
  · exact ⟨rfl, fun l hl => by cases hl⟩
  · rintro tr₂ w₂ l w₃ hw₂ ⟨hk, hq⟩ hstep
    have hreach : Reaches env cfg (tr ++ tr₂) w₂ := Lts.exec_append_eq_some.mpr ⟨w, h, hw₂⟩
    have hclear₂ : .main i .clear ∈ tr ++ tr₂ := List.mem_append_left _ hclear
    refine ⟨(killFired_after_clear hreach hs hclear₂ hstep).trans hk, fun l' hl' => ?_⟩
    rcases List.mem_append.mp hl' with hl' | hl'
    · exact hq l' hl'
    · obtain rfl := List.mem_singleton.mp hl'
      exact step_after_clear hreach hs hclear₂ hstep

/-- On a handle of its own, the load of `kill_fired` tells whether it was stored. -/
theorem loadKillFired_eq (h : Reaches env cfg tr w) {i : ι} (hc : (cfg i).cancel = true)
    (hs : SoleRun cfg i) {b : Bool} (hl : .main i (.loadKillFired b) ∈ tr) :
    b = w.handle.killFired := by
  obtain ⟨before, after, w₁, w₂, rfl, hbefore, hstep, hafter⟩ := Lts.exec_of_mem h hl
  have hrest : Lts.exec (step env cfg) w₁ (.main i (.loadKillFired b) :: after) = some w := by
    rw [Lts.exec_cons, hstep]
    exact hafter
  have hw₁ : ((cfg i).cancel && w₁.handle.killFired) = b ∧ (w₁.runs i).main.judging = true := by
    cases handleMove_of_step hstep with
    | main h => cases h with
      | loadKillFired pc => exact ⟨rfl, by rw [pc]; rfl⟩
    | inner hl => cases hl
  have hclear := (progress_of_reaches hbefore i).judging hc hw₁.2
  rw [(quiet_for_ever hbefore hs hclear hrest).1, ← hw₁.1, hc, Bool.true_and]

/-- The flag `cancelled` is never reset. -/
theorem cancelled_mono {w' : World ι} (h : Lts.exec (step env cfg) w tr = some w')
    (hc : w.handle.cancelled = true) : w'.handle.cancelled = true := by
  refine Lts.exec_invariant (P := fun _ w' => w'.handle.cancelled = true) hc ?_ h
  intro _ w l w' _ ih hstep
  exact (handleMove_of_step hstep).cancelled.mpr (.inl ih)

/-- A swap before the load is seen by the load. -/
theorem loadCancelled_of_swap (h : Reaches env cfg tr w) {i : ι} {k : CallerId ι} {b : Bool}
    (hab : [.cancel k (.swap false), .main i (.loadCancelled b)].Sublist tr) : b = true := by
  obtain ⟨l₁, l₂, l₃, w₁, w₂, w₃, w₄, -, -, hswap, hrun, hload, -⟩ := Lts.exec_of_sublist_pair h hab
  have hc₂ : w₂.handle.cancelled = true :=
    (handleMove_of_step hswap).cancelled.mpr (.inr ⟨k, rfl⟩)
  have hc₃ := cancelled_mono hrun hc₂
  cases handleMove_of_step hload with
  | main h => cases h with
    | loadCancelled => exact hc₃
  | inner hl => cases hl

/-- A lock taken between the two stores to the slot finds the run there. -/
theorem probed_of_lock (h : Reaches env cfg tr w) {i : ι} (hs : SoleRun cfg i)
    {k : CallerId ι} (hab : [.main i .wire, .cancel k .lock, .main i .clear].Sublist tr) :
    tr.any (Label.cancelProbes i) = true := by
  obtain ⟨r₁, r₂, rfl, hwire, hrest⟩ := List.cons_sublist_iff.mp hab
  obtain ⟨w₁, h₁, h₂⟩ := Lts.exec_append_eq_some.mp h
  obtain ⟨l₁, l₂, l₃, v₁, v₂, v₃, v₄, rfl, hv₁, hlock, hv₃, hclear, hv₄⟩ :=
    Lts.exec_of_sublist_pair h₂ hrest
  have hreach₁ : Reaches env cfg (r₁ ++ l₁) v₁ := Lts.exec_append_eq_some.mpr ⟨w₁, h₁, hv₁⟩
  have hreach₃ : Reaches env cfg ((r₁ ++ l₁) ++ (.cancel k .lock :: l₂)) v₃ :=
    Lts.exec_append_eq_some.mpr ⟨v₁, hreach₁, by simp [hlock, hv₃]⟩
  -- the slot is not cleared twice, so it is not cleared before the lock
  have hnot : .main i .clear ∉ r₁ ++ l₁ := fun hm => by
    have hafter := (progress_of_reaches hreach₃ i).cleared (List.mem_append_left _ hm)
    cases handleMove_of_step hclear with
    | main h => cases h with
      | clear pc => rw [pc] at hafter; cases hafter
    | inner hl => cases hl
  have hslot : v₁.handle.kill = some i :=
    (slot_iff_wired hreach₁ hs).mpr ⟨List.mem_append_left _ hwire, hnot⟩
  have hcaller : ∃ p, v₂.callers k = .probe i p := by
    cases handleMove_of_step hlock with
    | cancel h => cases h with
      | lockEmpty _ _ slot => rw [hslot] at slot; cases slot
      | lockWired _ _ slot =>
        rw [hslot] at slot
        cases slot
        exact ⟨_, setCaller_callers_self _ _ _⟩
    | inner hl => cases hl
  obtain ⟨p, hp⟩ := hcaller
  -- at the second store nobody holds the mutex, so the caller has probed by then
  have hprobed : l₂.any (Label.cancelProbes i) = true := by
    refine (probed_of_caller hp hv₃).resolve_left fun ⟨q, hq⟩ => ?_
    cases handleMove_of_step hclear with
    | main h => cases h with
      | clear pc free =>
        have := (guarded_of_reaches hreach₃).locked k (by rw [hq]; rfl)
        rw [free] at this
        cases this
    | inner hl => cases hl
  simp only [List.any_append, List.any_cons, hprobed, Bool.true_or, Bool.or_true]

/-- On a handle of its own and without a timeout, a run that emits `Exited` reports
what `kill_fired` says. -/
theorem result_of_killFired (h : Reaches env cfg tr w) {i : ι} (hcancel : (cfg i).cancel = true)
    (hs : SoleRun cfg i) (htimeout : (cfg i).timeout = none) {res : Except AerError Unit}
    (hret : (w.runs i).main = .finished (.ret res)) (hres : isVerdict res = true) :
    res = runResult false w.handle.killFired := by
  have hl := loaded_of_reaches h i
  rw [hret] at hl
  obtain ⟨t, cn, rfl, ht, hcn⟩ := hl hres
  rw [loadKillFired_eq h hcancel hs hcn]
  cases t with
  | false => rfl
  | true =>
    -- without a timeout there is no monitor to store the flag
    have hload : .main i (.loadTimedOut true) ∈ tr := (ht true).mpr rfl
    obtain ⟨b, hstore⟩ := (loadTimedOut_iff h).mp hload
    have hset := (timedOut_iff (i := i) h).mpr (hstore.subset (by simp))
    have := (lifecycle_of_reaches h i).timedOut hset
    rw [htimeout] at this
    cases this

/-- A run that returns, and reports neither a failed spawn nor a failed wait, has
emitted `Exited`. -/
theorem isVerdict_of_returned (h : Reaches env cfg tr w) {i : ι} {res : Except AerError Unit}
    (hret : (w.runs i).main = .finished (.ret res)) (hspawn : ∀ e, res ≠ .error (.spawnFailed e))
    (hwait : ∀ e, res ≠ .error (.waitFailed e)) : isVerdict res = true := by
  obtain ⟨k, hk⟩ := hasShape_of_returned h hret
  cases k with
  | spawnFailed =>
    obtain ⟨-, e, he⟩ := hk
    exact absurd he (hspawn e)
  | natural =>
    obtain ⟨-, -, -, -, -, -, rfl⟩ := hk
    rfl
  | timedOut | cancelled =>
    obtain ⟨-, -, -, -, -, rfl⟩ := hk
    rfl
  | waitFailed =>
    obtain ⟨-, -, e, -, -, he⟩ := hk
    exact absurd he (hwait e)

/-- **No lost and no late cancellation.**  A first swap that precedes the load of
`cancelled`, or whose lock falls between the two stores to the slot, leads to a probe
of the tree, and the tree is killed exactly if a probe answers "alive"; the run reports
a cancellation exactly if its tree was killed for one, and its natural end otherwise;
and when it has returned, every such kill has, and there will be no more. -/
theorem cancellation_is_neither_lost_nor_late (h : Reaches env cfg tr w) {i : ι}
    (hcancel : (cfg i).cancel = true) (htimeout : (cfg i).timeout = none)
    (hs : SoleRun cfg i) {res : Except AerError Unit}
    (hret : (w.runs i).main = .finished (.ret res)) (hspawn : ∀ e, res ≠ .error (.spawnFailed e))
    (hwait : ∀ e, res ≠ .error (.waitFailed e)) :
    (∀ k, (∃ b, [.cancel k (.swap false), .main i (.loadCancelled b)].Sublist tr) ∨
        (.cancel k (.swap false) ∈ tr ∧
          [.main i .wire, .cancel k .lock, .main i .clear].Sublist tr) →
      (∃ l, l.cancelProbes i = true ∧ [.cancel k (.swap false), l].Sublist tr) ∧
        ((∃ l ∈ tr, l.cancelKills i = true) ↔ ∃ l ∈ tr, l.probesAlive i = true)) ∧
    (HasShape (cfg i) (w.runs i).tree.root (w.runs i).events res .cancelled ↔
      ∃ l ∈ tr, l.cancelKills i = true) ∧
    ((∀ l ∈ tr, l.cancelKills i = false) →
      HasShape (cfg i) (w.runs i).tree.root (w.runs i).events res .natural) ∧
    (∀ j, ¬Killing w j) ∧
    ∀ tr₂ w₂, Lts.exec (step env cfg) w tr₂ = some w₂ →
      w₂.handle.killFired = w.handle.killFired ∧
        ∀ l ∈ tr₂, ∀ j, l.fires j = false ∧ l.cancelKills j = false := by
  have hverdict := isVerdict_of_returned h hret hspawn hwait
  have hclear : .main i .clear ∈ tr :=
    (progress_of_reaches h i).judging hcancel (by rw [hret]; exact hverdict)
  obtain ⟨hnotFiring, hnotKilling⟩ := quiet_after_clear h hs hclear i
  have hkills : tr.any (Label.fires i) = true ↔ tr.any (Label.cancelKills i) = true := by
    rw [(triggered_of_reaches h i).fired, or_iff_right hnotKilling]
  have halive : tr.any (Label.probesAlive i) = true ↔ tr.any (Label.cancelKills i) = true := by
    rw [(triggered_of_reaches h i).alive, or_iff_right hnotFiring, hkills]
  have hfired : w.handle.killFired = true ↔ tr.any (Label.cancelKills i) = true :=
    (hs.killFired_iff h).trans hkills
  have hres := result_of_killFired h hcancel hs htimeout hret hverdict
  obtain ⟨k, hk⟩ := hasShape_of_returned h hret
  simp only [List.any_eq_true] at halive hfired
  refine ⟨fun k hfirst => ⟨?_, halive.symm⟩, ?_, fun hnone => ?_,
    fun j => (quiet_after_clear h hs hclear j).2, fun tr₂ w₂ => quiet_for_ever h hs hclear⟩
  · -- in either order the tree is probed; a probe comes after the swap
    have hprobe : tr.any (Label.cancelProbes i) = true := by
      rcases hfirst with ⟨b, hab⟩ | ⟨-, hab⟩
      · obtain rfl := loadCancelled_of_swap h hab
        rcases probed_of_loadCancelled h hs (hab.subset (by simp)) with hm | ⟨p, hm⟩ | hp
        · rw [hret] at hm; cases hm
        · rw [hret] at hm; cases hm
        · exact hp
      · exact probed_of_lock h hs hab
    have hswap : .cancel k (.swap false) ∈ tr := by
      rcases hfirst with ⟨b, hab⟩ | ⟨hm, -⟩
      · exact hab.subset (by simp)
      · exact hm
    obtain ⟨l, hl, hp⟩ := List.any_eq_true.mp hprobe
    exact ⟨l, hp, probe_after_swap h hswap hl hp⟩
  · rw [← hfired]
    constructor
    · rintro ⟨-, -, -, -, -, hc⟩
      by_contra hf
      rw [hres, Bool.eq_false_iff.mpr hf] at hc
      cases hc
    · intro hf
      rw [hres, hf] at hk ⊢
      exact hk.eq_cancelled ▸ hk
  · have hf : w.handle.killFired = false := by
      rw [Bool.eq_false_iff]
      intro hf
      obtain ⟨l, hl, hlk⟩ := hfired.mp hf
      rw [hnone l hl] at hlk
      cases hlk
    rw [hres, hf] at hk ⊢
    exact hk.eq_natural ▸ hk

end Runs

/-- A run that is cancelled while its root works; the root gives in to the first signal. -/
def cancelledRun : List (Label Unit) :=
  beginRun () 7 ++
  [.main () .callWait, .wait () (.startOut true), .wait () (.startErr true),
    .cancel (.thread 0) (.swap false), .cancel (.thread 0) .lock,
    .cancel (.thread 0) (.probe () .present), .cancel (.thread 0) (.fire ()),
    .cancel (.thread 0) (.kill () (.term .present)), .proc () (.rootExit none),
    .wait () (.childWait (.ok ())), .wait () (.killTree .absent),
    .cancel (.thread 0) (.kill () (.probe .absent)),
    .cancel (.thread 0) (.kill () (.probe .absent)), .cancel (.thread 0) .unlock,
    .drain () .stdout (.read .eof), .drain () .stderr (.read .eof), .wait () .joinOut,
    .wait () .joinErr, .main () .waitReturned] ++
  endRun () false true

/-- It is reported as cancelled. -/
theorem cancelledRun_is_neither_lost_nor_late :
    ∃ w, Reaches Env.posix (fun _ => ⟨none, false, true⟩) cancelledRun w ∧
      (∃ l ∈ cancelledRun, l.cancelKills () = true) ∧
      HasShape ⟨none, false, true⟩ (w.runs ()).tree.root (w.runs ()).events (.error .cancelled)
        .cancelled := by
  obtain ⟨w, hw, hret⟩ : ∃ w, Reaches Env.posix (fun _ => ⟨none, false, true⟩) cancelledRun w ∧
      (w.runs ()).main = .finished (.ret (.error .cancelled)) :=
    Lts.exists_exec_of_any (by decide +kernel)
  have hkill : ∃ l ∈ cancelledRun, l.cancelKills () = true := by decide
  have hmain := cancellation_is_neither_lost_nor_late hw (i := ()) rfl rfl
    (fun j hj => absurd rfl hj) hret (by simp) (by simp)
  exact ⟨w, hw, hkill, hmain.2.1.mpr hkill⟩

end AerCore
