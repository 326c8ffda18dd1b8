import AerCore.Handle
import AerCore.Capture

/-!
# The verdict and the flags it is computed from

Each trigger leaves a flag behind.  The run thread loads the two flags one after the
other, `timed_out` first, and computes the reason on `Exited` and the result from the
values it got, whatever becomes of the flags afterwards.

## Main definitions

* `Loaded` — the verdict is computed from what was loaded.

## Main results

* `loaded_of_reaches` — the invariant.
* `timedOut_iff` — `timed_out` is set exactly when the monitor has stored it.
* `loadTimedOut_iff` — the load returns `true` exactly if the store comes before it.
-/

namespace AerCore

variable {ι : Type*}

/-! ### What was loaded -/

/-- `timed_out` was loaded, and this is the value. -/
def LoadedTimedOut (i : ι) (tr : List (Label ι)) (t : Bool) : Prop :=
  ∀ b, .main i (.loadTimedOut b) ∈ tr ↔ b = t

/-- The verdict is computed from what was loaded, by the place of the run thread. -/
def Loaded (i : ι) (tr : List (Label ι)) : MainPc → Prop
  | .loadKillFired _ t => LoadedTimedOut i tr t
  | .toExited _ t cn | .inExited t cn =>
      LoadedTimedOut i tr t ∧ .main i (.loadKillFired cn) ∈ tr
  | .leave (.ret res) | .guardKill _ (.ret res) | .guardReap (.ret res) | .finished (.ret res) =>
      isVerdict res = true → ∃ t cn, res = runResult t cn ∧ LoadedTimedOut i tr t ∧
        .main i (.loadKillFired cn) ∈ tr
  | .leave .unwound | .guardKill _ .unwound | .guardReap .unwound | .finished .unwound => True
  | _ => ∀ b, .main i (.loadTimedOut b) ∉ tr

section Moves

variable {env : Env} {c : RunConfig} {i : ι} {hd hd' : CancelHandle ι} {r r' : Run} {a : MainAct}
  {tr : List (Label ι)}

theorem LoadedTimedOut.frame {t : Bool} {l : Label ι} (h : LoadedTimedOut i tr t)
    (hl : ∀ b, l ≠ .main i (.loadTimedOut b)) : LoadedTimedOut i (tr ++ [l]) t := by
  intro b
  rw [← h b]
  simp [(hl b).symm]

/-- Only a load changes what was loaded. -/
theorem Loaded.frame {m : MainPc} {l : Label ι} (h : Loaded i tr m)
    (hl : ∀ b, l ≠ .main i (.loadTimedOut b)) : Loaded i (tr ++ [l]) m := by
  have hnone : (∀ b, .main i (.loadTimedOut b) ∉ tr) → ∀ b, .main i (.loadTimedOut b) ∉ tr ++ [l] :=
    fun h b => by simp [h b, (hl b).symm]
  cases m with
  | loadKillFired => exact LoadedTimedOut.frame h hl
  | toExited | inExited => exact ⟨h.1.frame hl, List.mem_append_left _ h.2⟩
  | leave o | guardKill _ o | guardReap o | finished o =>
    cases o with
    | ret res =>
      intro hres
      obtain ⟨t, cn, hr, ht, hcn⟩ := h hres
      exact ⟨t, cn, hr, ht.frame hl, List.mem_append_left _ hcn⟩
    | unwound => trivial
  | _ => exact hnone h

theorem loaded_afterWait {res : Except AerError ℤ} (hres : WaitAnswer env r.tree r.output res)
    (h : ∀ b, .main i (.loadTimedOut b) ∉ tr) : Loaded i tr (r.afterWait c res).main := by
  cases res with
  | ok code =>
    simp only [Run.afterWait]
    split <;> exact h
  | error e =>
    obtain ⟨e', rfl⟩ := hres
    exact fun hres => by cases hres

theorem MainMove.killFired_eq {b : Bool} (h : MainMove env c i hd r (.loadKillFired b) hd' r') :
    (c.cancel && hd.killFired) = b := by
  cases h
  rfl

/-- `Exited` is emitted with the code and the reason that were decided for. -/
theorem MainMove.exited_mem (h : MainMove env c i hd r a hd' r') {code : ℤ} {reason : ExitReason}
    (he : .exited code reason ∈ r'.events) :
    .exited code reason ∈ r.events ∨ ∃ os t cn, r.main = .toExited os t cn ∧
      code = exitCode os t cn ∧ reason = exitReason t cn := by
  cases h with
  | started => exact .inl (by simpa using he)
  | @recv m => exact .inl (by cases m <;> simpa [ChunkMsg.event] using he)
  | exited pc =>
    rcases List.mem_append.mp he with he | he
    · exact .inl he
    · obtain ⟨rfl, rfl⟩ := Event.exited.inj (List.mem_singleton.mp he)
      exact .inr ⟨_, _, _, pc, rfl, rfl⟩
  | @joinWait res | @waitReturned res => cases res <;> exact .inl he
  | _ => exact .inl he

theorem RunMove.exited_mem [DecidableEq ι] {l : Label ι} (h : RunMove env c i hd r l r') {code : ℤ}
    {reason : ExitReason} (he : .exited code reason ∈ r'.events) :
    .exited code reason ∈ r.events ∨ ∃ os t cn, r.main = .toExited os t cn ∧
      code = exitCode os t cn ∧ reason = exitReason t cn := by
  cases h with
  | main h => exact h.exited_mem he
  | monitor h => exact .inl (by cases h <;> exact he)
  | wait | drain | proc | cancelKill | other => exact .inl he

theorem MainMove.loaded (h : MainMove env c i hd r a hd' r') (ha : Answered env r)
    (hl : Loaded i tr r.main) : Loaded i (tr ++ [.main i a]) r'.main := by
  -- a step other than the load leaves what was loaded as it is
  have hframe : (∀ b, a ≠ .loadTimedOut b) → Loaded i (tr ++ [.main i a]) r.main := fun hne =>
    hl.frame fun b hb => hne b (by simpa using hb)
  cases h with
  | loadTimedOut pc =>
    rw [pc] at hl
    intro b
    have hnot : .main i (.loadTimedOut b) ∉ tr := hl b
    simp [hnot]
  | loadKillFired pc =>
    have hl' := hframe (by simp)
    rw [pc] at hl'
    exact ⟨hl', by simp⟩
  | exited pc =>
    have hl' := hframe (by simp)
    rw [pc] at hl'
    exact hl'
  | exitedReturns pc =>
    have hl' := hframe (by simp)
    rw [pc] at hl'
    exact fun _ => ⟨_, _, rfl, hl'⟩
  | startedRefused _ he | exitedRefused _ he =>
    intro hres
    rw [isVerdict_of_transition he] at hres
    cases hres
  | spawnFailed | recvWaitLost => exact fun hres => by cases hres
  | exitedPanics | startedPanics | startMonitorFails | startWaitFails | chunkPanics
  | waitPanicked => trivial
  | @joinWait res pc =>
    have hl' := hframe (by simp)
    rw [pc] at hl'
    exact loaded_afterWait (ha.main res (by rw [pc]; rfl)).2 hl'
  | @waitReturned res pc returned =>
    have hl' := hframe (by simp)
    rw [pc] at hl'
    have hres := ha.wait
    rw [returned] at hres
    exact loaded_afterWait hres hl'
  | @dropLocals o pc =>
    have hl' := hframe (by simp)
    rw [pc] at hl'
    simp only
    cases o <;> split <;> exact hl'
  | @guardMore _ _ _ _ o pc | @guardDone _ _ _ _ o pc | @guardReap o _ _ pc =>
    have hl' := hframe (by simp)
    rw [pc] at hl'
    cases o <;> exact hl'
  | startedReturns pc | loadCancelled pc | loadFired pc =>
    have hl' := hframe (by simp)
    rw [pc] at hl'
    simp only
    split <;> exact hl'
  | startMonitor pc | noMonitor pc =>
    have hl' := hframe (by simp)
    rw [pc] at hl'
    simp only [RunConfig.afterMonitor]
    split <;> exact hl'
  | _ pc =>
    have hl' := hframe (by simp)
    rw [pc] at hl'
    exact hl'

end Moves

section Runs

variable [DecidableEq ι] {env : Env} {cfg : ι → RunConfig} {tr : List (Label ι)} {w : World ι}
  {i : ι}

/-- **The verdict of a run is computed from what it loaded.** -/
theorem loaded_of_reaches (h : Reaches env cfg tr w) (i : ι) : Loaded i tr (w.runs i).main := by
  refine Lts.exec_invariant (P := fun tr w => Loaded i tr (w.runs i).main) ?_ ?_ h
  · intro b hb
    cases hb
  · intro tr w l w' hw hl hstep
    rcases mainMove_or_stays hstep i with ⟨a, rfl, h⟩ | ⟨hne, hm⟩
    · exact h.loaded (answered_of_reaches hw i) hl
    · rw [hm]
      exact hl.frame fun b => hne _

/-! ### The flag of the monitor -/

/-- Only the store of the monitor changes `timed_out`. -/
theorem RunMove.timedOut_iff {c : RunConfig} {hd : CancelHandle ι} {r r' : Run}
    {l : Label ι} (h : RunMove env c i hd r l r') :
    r'.timedOut = true ↔ r.timedOut = true ∨ l = .monitor i .store := by
  cases h with
  | main h =>
    cases h with
    | @joinWait res | @waitReturned res => cases res <;> simp [Run.afterWait]
    | _ => simp
  | monitor h => cases h <;> simp
  | wait | drain | proc | cancelKill => simp
  | other hl =>
    have hne : l ≠ .monitor i .store := fun h => by subst h; simp [Label.touches] at hl
    simp [hne]

/-- `timed_out` is set exactly when the monitor has stored it. -/
theorem timedOut_iff (h : Reaches env cfg tr w) :
    (w.runs i).timedOut = true ↔ .monitor i .store ∈ tr := by
  refine Lts.exec_invariant
    (P := fun tr w => (w.runs i).timedOut = true ↔ .monitor i .store ∈ tr) ?_ ?_ h
  · constructor <;> intro h <;> cases h
  · intro tr w l w' _ ih hstep
    rw [(runMove_of_step hstep i).timedOut_iff, ih, List.mem_append, List.mem_singleton,
      eq_comm (a := l)]

/-- A load returns the flag it reads. -/
theorem eq_timedOut_of_load {w' : World ι} {b : Bool}
    (hstep : step env cfg w (.main i (.loadTimedOut b)) = some w') : (w.runs i).timedOut = b := by
  cases handleMove_of_step hstep with
  | main h => cases h with
    | loadTimedOut => rfl
  | inner hl => cases hl

/-- **The load of `timed_out` returns `true` exactly if the store comes before it.** -/
theorem loadTimedOut_iff (h : Reaches env cfg tr w) :
    .main i (.loadTimedOut true) ∈ tr ↔
      ∃ b, [.monitor i .store, .main i (.loadTimedOut b)].Sublist tr := by
  constructor
  · intro hl
    obtain ⟨before, after, w₁, w₂, rfl, hbefore, hstep, -⟩ := Lts.exec_of_mem h hl
    have hstore := (timedOut_iff hbefore).mp (eq_timedOut_of_load hstep)
    exact ⟨true, (List.singleton_sublist.mpr hstore).append
      (List.Sublist.cons_cons _ (List.nil_sublist after))⟩
  · rintro ⟨b, hab⟩
    obtain ⟨l₁, l₂, l₃, w₁, w₂, w₃, w₄, rfl, h₁, hstore, h₃, hload, -⟩ :=
      Lts.exec_of_sublist_pair h hab
    have hreach : Reaches env cfg (l₁ ++ (.monitor i .store :: l₂)) w₃ :=
      Lts.exec_append_eq_some.mpr ⟨w₁, h₁, by simp [hstore, h₃]⟩
    have ht : (w₃.runs i).timedOut = true := (timedOut_iff hreach).mpr (by simp)
    rw [eq_timedOut_of_load hload] at ht
    subst ht
    simp

end Runs

end AerCore
