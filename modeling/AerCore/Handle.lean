import AerCore.Lifecycle

/-!
# The shared cancel handle

What holds of a `CancelHandle` at every moment, however many runs share it and
however many threads call `cancel()`.  Only the first caller ever leaves the
swap with work to do, so at most one call is inside the mutex; the run it found
in the slot stays there until it lets go; and a kill is fired exactly after a
probe that answered "alive", in the wiring block of a run or in a call of
`cancel()`.

## Main definitions

* `Label.cancelProbes`, `Label.probesAlive`, `Label.fires`, `Label.cancelKills` — what
  a label does on behalf of `cancel()` to the tree of a run.
* `HandleMove` — what a step of the system does to the handle and the threads around it.
* `Guarded` — the mutex and the slot.
* `Triggered` — probes, stores of `kill_fired` and kills go together.

## Main results

* `guarded_of_reaches`, `triggered_of_reaches` — the invariants.
* `killFired_iff` — `kill_fired` is set exactly when some run's tree was fired at.
-/

namespace AerCore

variable {ι : Type*}

/-! ### Labels -/

/-- An OS call of `tree_alive` on the tree of run `i`, on behalf of `cancel()`. -/
def Label.cancelProbes [DecidableEq ι] (i : ι) : Label ι → Bool
  | .main j (.probe _) | .cancel _ (.probe j _) => decide (j = i)
  | _ => false

/-- Such a call that makes `tree_alive` answer "alive". -/
def Label.probesAlive [DecidableEq ι] (i : ι) : Label ι → Bool
  | .main j (.probe x) | .cancel _ (.probe j x) => decide (j = i ∧ x ≠ .absent)
  | _ => false

/-- `kill_fired` is stored before a kill of the tree of run `i`. -/
def Label.fires [DecidableEq ι] (i : ι) : Label ι → Bool
  | .main j .fire | .cancel _ (.fire j) => decide (j = i)
  | _ => false

/-- A step of a `kill_escalating` of the tree of run `i` that `cancel()` triggered. -/
def Label.cancelKills [DecidableEq ι] (i : ι) : Label ι → Bool
  | .main j (.kill _) | .cancel _ (.kill j _) => decide (j = i)
  | _ => false

/-- A step of the monitor, of `wait`, of a drain thread or of a process. -/
def Label.inner : Label ι → Bool
  | .monitor _ _ | .wait _ _ | .drain _ _ _ | .proc _ _ => true
  | .main _ _ | .cancel _ _ => false

/-! ### What a step does to the handle -/

/-- What a step of the system does to the handle, the cancelling threads and the run
threads. -/
inductive HandleMove [DecidableEq ι] (env : Env) (cfg : ι → RunConfig) (w : World ι) :
    Label ι → World ι → Prop
  | main {i a hd r} (h : MainMove env (cfg i) i w.handle (w.runs i) a hd r) :
      HandleMove env cfg w (.main i a) (World.setRun { w with handle := hd } i r)
  | cancel {k a w'} (h : CancelMove env w k a w') : HandleMove env cfg w (.cancel k a) w'
  | inner {l w'} (hl : l.inner = true) (handle : w'.handle = w.handle)
      (callers : w'.callers = w.callers) (main : ∀ j, (w'.runs j).main = (w.runs j).main) :
      HandleMove env cfg w l w'

theorem setRun_main [DecidableEq ι] {w : World ι} {i : ι} {r : Run}
    (h : r.main = (w.runs i).main) (j : ι) : ((w.setRun i r).runs j).main = (w.runs j).main := by
  by_cases hj : j = i
  · subst hj
    rw [setRun_runs_self, h]
  · rw [setRun_runs_ne _ _ hj]

theorem setTree_main [DecidableEq ι] (w : World ι) (i : ι) (t : Tree) (j : ι) :
    ((w.setTree i t).runs j).main = (w.runs j).main :=
  setRun_main (r := { w.runs i with tree := t }) rfl j

theorem handleMove_of_step [DecidableEq ι] {env : Env} {cfg : ι → RunConfig} {w w' : World ι}
    {l : Label ι} (h : step env cfg w l = some w') : HandleMove env cfg w l w' := by
  cases l with
  | main i a =>
    simp only [step] at h
    split at h
    · cases h
    · obtain ⟨⟨hd, r⟩, hr, h⟩ := Option.map_eq_some_iff.mp h
      cases h
      exact .main (mainMove_of_step hr)
  | cancel k a => exact .cancel (cancelMove_of_step h)
  | monitor i a =>
    obtain ⟨r, hr, h⟩ := Option.map_eq_some_iff.mp h
    cases h
    exact .inner rfl rfl rfl (setRun_main (monitorMove_of_step hr).main_eq)
  | wait i a =>
    obtain ⟨⟨t, o, x⟩, -, h⟩ := Option.map_eq_some_iff.mp h
    cases h
    exact .inner rfl rfl rfl (setRun_main rfl)
  | drain i s a =>
    obtain ⟨⟨t, o⟩, -, h⟩ := Option.map_eq_some_iff.mp h
    cases h
    exact .inner rfl rfl rfl (setRun_main rfl)
  | proc i a =>
    obtain ⟨t, -, h⟩ := Option.map_eq_some_iff.mp h
    cases h
    exact .inner rfl rfl rfl (setRun_main rfl)

/-- A call of `cancel()` leaves the run threads where they are. -/
theorem CancelMove.main_eq [DecidableEq ι] {env : Env} {w w' : World ι} {k : CallerId ι}
    {a : CancelAct ι} (h : CancelMove env w k a w') (j : ι) :
    (w'.runs j).main = (w.runs j).main := by
  cases h with
  | killMore | killDone => exact setTree_main w _ _ j
  | _ => rfl

/-- A step moves the run thread of run `i`, or leaves it where it is. -/
theorem mainMove_or_stays [DecidableEq ι] {env : Env} {cfg : ι → RunConfig} {w w' : World ι}
    {l : Label ι} (hstep : step env cfg w l = some w') (i : ι) :
    (∃ a, l = .main i a ∧
        MainMove env (cfg i) i w.handle (w.runs i) a w'.handle (w'.runs i)) ∨
      ((∀ a, l ≠ .main i a) ∧ (w'.runs i).main = (w.runs i).main) := by
  cases handleMove_of_step hstep with
  | @main j a hd r h =>
    by_cases hj : i = j
    · subst hj
      refine .inl ⟨a, rfl, ?_⟩
      rw [setRun_runs_self, setRun_handle]
      exact h
    · refine .inr ⟨fun a => by simp [Ne.symm hj], ?_⟩
      rw [setRun_runs_ne _ _ hj]
  | cancel h => exact .inr ⟨by simp, h.main_eq i⟩
  | inner hl _ _ hm =>
    refine .inr ⟨fun a ha => ?_, hm i⟩
    subst ha
    cases hl

/-- A call of `cancel()` leaves the other callers where they are. -/
theorem CancelMove.callers_ne [DecidableEq ι] {env : Env} {w w' : World ι} {k : CallerId ι}
    {a : CancelAct ι} (h : CancelMove env w k a w') {k' : CallerId ι} (hk : k' ≠ k) :
    w'.callers k' = w.callers k' := by
  cases h <;> exact setCaller_callers_ne _ _ hk

/-! ### The mutex and the slot -/

/-- At most one call of `cancel()` has work to do; while it holds the mutex, the slot
names the run it found there. -/
structure Guarded (w : World ι) : Prop where
  /-- Before the first swap nobody is inside. -/
  idle : w.handle.cancelled = false → ∀ k, w.callers k = .idle
  /-- Only the first caller goes on. -/
  sole : ∀ k k', w.callers k ≠ .idle → w.callers k' ≠ .idle → k = k'
  /-- Past the lock, the mutex is held. -/
  locked : ∀ k, (w.callers k).holdsLock = true → w.handle.locked = true
  /-- The run in the hands of a caller is the one in the slot. -/
  slot : ∀ k j, (w.callers k).target = some j → w.handle.kill = some j

theorem Caller.holdsLock_of_target {c : Caller ι} {j : ι} (h : c.target = some j) :
    c.holdsLock = true := by
  cases c <;> first | rfl | cases h

theorem Caller.ne_idle_of_target {c : Caller ι} {j : ι} (h : c.target = some j) : c ≠ .idle := by
  rintro rfl
  cases h

section Moves

variable {env : Env} {cfg : ι → RunConfig} {w w' : World ι} {l : Label ι} {tr : List (Label ι)}

/-- While nobody holds the mutex, no caller has a run in its hands. -/
theorem Guarded.target_of_free (hg : Guarded w) (free : w.handle.locked = false)
    (k : CallerId ι) : (w.callers k).target = none := by
  cases h : (w.callers k).target with
  | none => rfl
  | some j =>
    have := hg.locked k (Caller.holdsLock_of_target h)
    rw [free] at this
    cases this

/-- The handle around a move of the run thread. -/
theorem MainMove.handle {c : RunConfig} {i : ι} {hd hd' : CancelHandle ι} {r r' : Run}
    {a : MainAct} (h : MainMove env c i hd r a hd' r') :
    hd' = hd ∨ (r.main = .fire ∧ a = .fire ∧ hd' = { hd with killFired := true }) ∨
      (r.main = .wire ∧ a = .wire ∧ hd.locked = false ∧ hd' = { hd with kill := some i }) ∨
      ((∃ code, r.main = .clear code) ∧ a = .clear ∧ hd.locked = false ∧
        hd' = { hd with kill := none }) := by
  cases h with
  | fire pc => exact .inr (.inl ⟨pc, rfl, rfl⟩)
  | wire pc free => exact .inr (.inr (.inl ⟨pc, rfl, free, rfl⟩))
  | clear pc free => exact .inr (.inr (.inr ⟨⟨_, pc⟩, rfl, free, rfl⟩))
  | _ => exact .inl rfl

/-- A world in which only `k` may be inside `cancel()`. -/
theorem guarded_of_alone {k : CallerId ι} (others : ∀ k', k' ≠ k → w.callers k' = .idle)
    (cancelled : w.handle.cancelled = true)
    (locked : (w.callers k).holdsLock = true → w.handle.locked = true)
    (slot : ∀ j, (w.callers k).target = some j → w.handle.kill = some j) : Guarded w := by
  have hk : ∀ k', w.callers k' ≠ .idle → k' = k := fun k' hne => by
    by_contra h
    exact hne (others k' h)
  refine ⟨fun hc => ?_, fun k₁ k₂ h₁ h₂ => ?_, fun k' hl => ?_, fun k' j ht => ?_⟩
  · rw [cancelled] at hc
    cases hc
  · rw [hk k₁ h₁, hk k₂ h₂]
  · obtain rfl := hk k' fun hi => by rw [hi] at hl; cases hl
    exact locked hl
  · obtain rfl := hk k' (Caller.ne_idle_of_target ht)
    exact slot j ht

theorem guarded_move [DecidableEq ι] (h : HandleMove env cfg w l w') (hg : Guarded w) :
    Guarded w' := by
  cases h with
  | inner _ hh hc _ =>
    refine ⟨?_, ?_, ?_, ?_⟩ <;> rw [hc]
    · rw [hh]; exact hg.idle
    · exact hg.sole
    · rw [hh]; exact hg.locked
    · rw [hh]; exact hg.slot
  | main h =>
    rcases h.handle with rfl | ⟨-, -, rfl⟩ | ⟨-, -, free, rfl⟩ | ⟨-, -, free, rfl⟩
    · exact ⟨hg.idle, hg.sole, hg.locked, hg.slot⟩
    · exact ⟨hg.idle, hg.sole, hg.locked, hg.slot⟩
    · refine ⟨hg.idle, hg.sole, hg.locked, fun k j hk => ?_⟩
      rw [setRun_callers, hg.target_of_free free k] at hk
      cases hk
    · refine ⟨hg.idle, hg.sole, hg.locked, fun k j hk => ?_⟩
      rw [setRun_callers, hg.target_of_free free k] at hk
      cases hk
  | @cancel k a w' h =>
    -- a second caller that is not idle would have met the swap of the first
    have others : w.callers k ≠ .idle ∨ w.handle.cancelled = false → ∀ k', k' ≠ k →
        w'.callers k' = .idle := by
      intro hor k' hk'
      rw [h.callers_ne hk']
      by_contra hne
      rcases hor with hk | hc
      · exact hk' (hg.sole k' k hne hk)
      · exact hne (hg.idle hc k')
    have hcancelled : w.callers k ≠ .idle → w.handle.cancelled = true := fun hk => by
      by_contra hc
      exact hk (hg.idle (Bool.eq_false_iff.mpr hc) k)
    cases h with
    | swapFirst pc first =>
      exact guarded_of_alone (others (.inr first)) rfl (by simp [Caller.holdsLock])
        (by simp [Caller.target])
    | swapAgain pc =>
      have : w.setCaller k .idle = w := by
        unfold World.setCaller
        rw [← pc, Function.update_eq_self]
      rw [this]
      exact hg
    | lockEmpty pc =>
      have hk : w.callers k ≠ .idle := by simp [pc]
      exact guarded_of_alone (others (.inl hk)) (hcancelled hk) (by simp) (by simp [Caller.target])
    | lockWired pc free slot =>
      have hk : w.callers k ≠ .idle := by simp [pc]
      exact guarded_of_alone (others (.inl hk)) (hcancelled hk) (by simp)
        (by simp [Caller.target, slot])
    | probeMore pc | probeAlive pc | fire pc | killMore pc =>
      have hk : w.callers k ≠ .idle := by simp [pc]
      have hl := hg.locked k (by simp [pc, Caller.holdsLock])
      have hs := hg.slot k _ (by rw [pc]; rfl)
      exact guarded_of_alone (others (.inl hk)) (hcancelled hk) (fun _ => hl)
        (by simp [Caller.target, hs])
    | probeDead pc | killDone pc =>
      have hk : w.callers k ≠ .idle := by simp [pc]
      have hl := hg.locked k (by simp [pc, Caller.holdsLock])
      exact guarded_of_alone (others (.inl hk)) (hcancelled hk) (fun _ => hl)
        (by simp [Caller.target])
    | unlock pc =>
      have hk : w.callers k ≠ .idle := by simp [pc]
      exact guarded_of_alone (others (.inl hk)) (hcancelled hk) (by simp [Caller.holdsLock])
        (by simp [Caller.target])

end Moves

/-! ### Probes, stores and kills -/

/-- Somebody is about to store `kill_fired` for run `i`. -/
def Firing (w : World ι) (i : ι) : Prop :=
  (w.runs i).main = .fire ∨ ∃ k, w.callers k = .fire i

/-- Somebody is in a `kill_escalating` of the tree of run `i` that `cancel()` triggered. -/
def Killing (w : World ι) (i : ι) : Prop :=
  (∃ p, (w.runs i).main = .kill p) ∨ ∃ k p, w.callers k = .kill i p

/-- Probes that answer "alive", stores of `kill_fired` and kills go together. -/
structure Triggered [DecidableEq ι] (tr : List (Label ι)) (w : World ι) (i : ι) : Prop where
  /-- After a probe that answers "alive", and only then, `kill_fired` is stored. -/
  alive : tr.any (Label.probesAlive i) = true ↔ Firing w i ∨ tr.any (Label.fires i) = true
  /-- After `kill_fired` is stored, and only then, the tree is killed. -/
  fired : tr.any (Label.fires i) = true ↔ Killing w i ∨ tr.any (Label.cancelKills i) = true

/-- What a step does to the probes, stores and kills of run `i`. -/
inductive TriggerMove [DecidableEq ι] (w : World ι) (i : ι) (l : Label ι) (w' : World ι) : Prop
  | probe (label : l.probesAlive i = true) (fires : l.fires i = false)
      (kills : l.cancelKills i = false) (firing : Firing w' i)
      (killing : Killing w' i ↔ Killing w i)
  | fire (label : l.fires i = true) (kills : l.cancelKills i = false) (firing : Firing w i)
      (killing : Killing w' i)
  | kill (label : l.cancelKills i = true) (alive : l.probesAlive i = false)
      (fires : l.fires i = false) (killing : Killing w i) (firing : Firing w' i ↔ Firing w i)
  | other (alive : l.probesAlive i = false) (fires : l.fires i = false)
      (kills : l.cancelKills i = false) (firing : Firing w' i ↔ Firing w i)
      (killing : Killing w' i ↔ Killing w i)

theorem triggered_move [DecidableEq ι] {w w' : World ι} {i : ι} {l : Label ι}
    {tr : List (Label ι)} (h : TriggerMove w i l w') (ht : Triggered tr w i) :
    Triggered (tr ++ [l]) w' i := by
  obtain ⟨ha, hf⟩ := ht
  cases h with
  | probe label fires kills firing killing =>
    constructor <;> simp [label, fires, kills, firing, killing, hf]
  | fire label kills firing killing =>
    have : tr.any (Label.probesAlive i) = true := ha.mpr (.inl firing)
    constructor <;> simp [label, kills, killing, this]
  | kill label alive _ killing firing =>
    have : tr.any (Label.fires i) = true := hf.mpr (.inl killing)
    constructor
    · simp only [List.any_append, alive, List.any_cons, List.any_nil, Bool.or_false, firing, this,
        Bool.true_or, or_true, iff_true]
      exact ha.mpr (.inr this)
    · simp [label, this]
  | other alive fires kills firing killing =>
    constructor <;> simp only [List.any_append, List.any_cons, List.any_nil, alive, fires, kills,
      Bool.or_false, firing, killing]
    · exact ha
    · exact hf

/-- The run thread around a probe, a store or a kill in its wiring block. -/
theorem MainEdge.trigger {env : Env} {c : RunConfig} {m m' : MainPc} {a : MainAct}
    (h : MainEdge env c m a m') :
    ((∃ x, a = .probe x ∧ x ≠ .absent) ∧ m' = .fire ∧ ∀ p, m ≠ .kill p) ∨
      (a = .fire ∧ m = .fire ∧ ∃ p, m' = .kill p) ∨
      ((∃ b, a = .kill b) ∧ (∃ p, m = .kill p) ∧ m' ≠ .fire) ∨
      ((∀ x, a = .probe x → x = .absent) ∧ a ≠ .fire ∧ (∀ b, a ≠ .kill b) ∧ m ≠ .fire ∧
        m' ≠ .fire ∧ (∀ p, m ≠ .kill p) ∧ ∀ p, m' ≠ .kill p) := by
  cases h with
  | probeAlive alive => exact .inl ⟨⟨_, rfl, alive⟩, rfl, by simp⟩
  | fire => exact .inr (.inl ⟨rfl, rfl, _, rfl⟩)
  | killMore | killDone => exact .inr (.inr (.inl ⟨⟨_, rfl⟩, ⟨_, rfl⟩, by simp⟩))
  | _ => exact .inr (.inr (.inr (by simp)))

section Moves

variable [DecidableEq ι] {env : Env} {cfg : ι → RunConfig} {w w' : World ι} {l : Label ι}
  {tr : List (Label ι)}

theorem triggerMove_main {j i : ι} {a : MainAct} {hd : CancelHandle ι} {r : Run}
    (h : MainMove env (cfg j) j w.handle (w.runs j) a hd r) :
    TriggerMove w i (.main j a) (World.setRun { w with handle := hd } j r) := by
  by_cases hj : j = i
  · subst hj
    have hmain : ((World.setRun { w with handle := hd } j r).runs j).main = r.main := by simp
    rcases h.edge.trigger with ⟨⟨x, rfl, hx⟩, hm, hk⟩ | ⟨rfl, hm, p, hp⟩ | ⟨⟨b, rfl⟩, ⟨p, hp⟩, hm⟩ |
      ⟨hx, hf, hb, hm, hm', hp, hp'⟩
    · exact .probe (by simp [Label.probesAlive, hx]) rfl rfl (.inl (hmain.trans hm))
        (by simp [Killing, hm, hk])
    · exact .fire (by simp [Label.fires]) rfl (.inl hm) (.inl ⟨p, hmain.trans hp⟩)
    · exact .kill (by simp [Label.cancelKills]) rfl rfl (.inl ⟨p, hp⟩) (by simp [Firing, hm, hp])
    · refine .other ?_ ?_ ?_ (by simp [Firing, hm, hm']) (by simp [Killing, hp, hp'])
      · cases a <;> simp_all [Label.probesAlive]
      · cases a <;> simp_all [Label.fires]
      · cases a <;> simp_all [Label.cancelKills]
  · have hrun : (World.setRun { w with handle := hd } j r).runs i = w.runs i :=
      setRun_runs_ne _ _ (Ne.symm hj)
    refine .other ?_ ?_ ?_ (by simp [Firing, hrun]) (by simp [Killing, hrun])
    · cases a <;> simp [Label.probesAlive, hj]
    · cases a <;> simp [Label.fires, hj]
    · cases a <;> simp [Label.cancelKills, hj]

/-- A caller moves from one place outside `P` to another. -/
theorem exists_caller_iff {P : Caller ι → Prop} {k : CallerId ι}
    (others : ∀ k', k' ≠ k → w'.callers k' = w.callers k') (h : ¬P (w.callers k))
    (h' : ¬P (w'.callers k)) : (∃ k', P (w'.callers k')) ↔ ∃ k', P (w.callers k') := by
  have key : ∀ k', P (w'.callers k') ↔ P (w.callers k') := by
    intro k'
    by_cases hk : k' = k
    · subst hk
      exact iff_of_false h' h
    · rw [others k' hk]
  exact exists_congr key

theorem triggerMove_cancel {i : ι} {k : CallerId ι} {a : CancelAct ι}
    (h : CancelMove env w k a w') : TriggerMove w i (.cancel k a) w' := by
  have hmain := h.main_eq i
  have hfiring : w.callers k ≠ .fire i → w'.callers k ≠ .fire i → (Firing w' i ↔ Firing w i) := by
    intro h₁ h₂
    unfold Firing
    rw [hmain, exists_caller_iff (P := (· = .fire i)) (fun k' hk => h.callers_ne hk) h₁ h₂]
  have hkilling : (∀ p, w.callers k ≠ .kill i p) → (∀ p, w'.callers k ≠ .kill i p) →
      (Killing w' i ↔ Killing w i) := by
    intro h₁ h₂
    unfold Killing
    rw [hmain, exists_caller_iff (P := fun c => ∃ p, c = .kill i p) (fun k' hk => h.callers_ne hk)
      (by simpa using h₁) (by simpa using h₂)]
  cases h with
  | @probeAlive j p x pc h =>
    have hx : x ≠ .absent := by simpa using treeAliveStep_eq_answer h
    by_cases hj : j = i
    · subst hj
      exact .probe (by simp [Label.probesAlive, hx]) rfl rfl (.inr ⟨k, by simp⟩)
        (hkilling (by simp [pc]) (by simp))
    · exact .other (by simp [Label.probesAlive, hj]) rfl rfl (hfiring (by simp [pc]) (by simp [hj]))
        (hkilling (by simp [pc]) (by simp))
  | @probeMore j p x p' pc h =>
    obtain ⟨-, -, hx, -⟩ := treeAliveStep_eq_more h
    exact .other (by simp [Label.probesAlive, hx]) rfl rfl (hfiring (by simp [pc]) (by simp))
      (hkilling (by simp [pc]) (by simp))
  | @probeDead j p x pc h =>
    have hx : x = .absent := by simpa using treeAliveStep_eq_answer h
    exact .other (by simp [Label.probesAlive, hx]) rfl rfl (hfiring (by simp [pc]) (by simp))
      (hkilling (by simp [pc]) (by simp))
  | @fire j pc =>
    by_cases hj : j = i
    · subst hj
      exact .fire (by simp [Label.fires]) rfl (.inr ⟨k, pc⟩)
        (.inr ⟨k, _, setCaller_callers_self _ _ _⟩)
    · exact .other rfl (by simp [Label.fires, hj]) rfl (hfiring (by simp [pc, hj]) (by simp))
        (hkilling (by simp [pc]) (by simp [hj]))
  | @killMore j _ _ _ _ pc | @killDone j _ _ _ _ pc =>
    by_cases hj : j = i
    · subst hj
      exact .kill (by simp [Label.cancelKills]) rfl rfl (.inr ⟨k, _, pc⟩)
        (hfiring (by simp [pc]) (by simp))
    · exact .other rfl rfl (by simp [Label.cancelKills, hj]) (hfiring (by simp [pc]) (by simp))
        (hkilling (by simp [pc, hj]) (by simp [hj]))
  | _ pc =>
    exact .other rfl rfl rfl (hfiring (by simp [pc]) (by simp)) (hkilling (by simp [pc]) (by simp))

theorem triggerMove_of_step (hstep : step env cfg w l = some w') (i : ι) :
    TriggerMove w i l w' := by
  cases handleMove_of_step hstep with
  | main h => exact triggerMove_main h
  | cancel h => exact triggerMove_cancel h
  | inner hl _ hc hm =>
    have hlabel : l.probesAlive i = false ∧ l.fires i = false ∧ l.cancelKills i = false := by
      cases l <;> first | exact ⟨rfl, rfl, rfl⟩ | cases hl
    exact .other hlabel.1 hlabel.2.1 hlabel.2.2 (by simp [Firing, hm, hc])
      (by simp [Killing, hm, hc])

end Moves

/-- Only a store changes `kill_fired`. -/
theorem HandleMove.killFired [DecidableEq ι] {env : Env} {cfg : ι → RunConfig} {w w' : World ι}
    {l : Label ι} (h : HandleMove env cfg w l w') :
    w'.handle.killFired = true ↔ w.handle.killFired = true ∨ ∃ i, l.fires i = true := by
  cases h with
  | main h => cases h <;> simp [Label.fires]
  | cancel h => cases h <;> simp [Label.fires]
  | inner hl hh =>
    cases l with
    | main | cancel => cases hl
    | _ => simp [Label.fires, hh]

/-! ### Who uses the handle -/

/-- The run thread is at a statement that is there only with a handle. -/
def MainPc.onHandle : MainPc → Bool
  | .wire | .loadCancelled | .loadFired | .probe _ | .fire | .kill _ | .clear _ => true
  | _ => false

theorem MainEdge.onHandle {env : Env} {c : RunConfig} {m m' : MainPc} {a : MainAct}
    (h : MainEdge env c m a m') (hm : m.onHandle = true → c.cancel = true)
    (hon : m'.onHandle = true) : c.cancel = true := by
  cases h with
  | startedWire cancel | joinClear cancel | waitClear cancel => exact cancel
  | wire | isCancelled | notFired | probeMore | probeAlive | fire | killMore => exact hm rfl
  | _ => cases hon

/-! ### Whole runs -/

section Runs

variable [DecidableEq ι] {env : Env} {cfg : ι → RunConfig} {tr : List (Label ι)} {w : World ι}

theorem guarded_of_reaches (h : Reaches env cfg tr w) : Guarded w := by
  refine Lts.exec_invariant (P := fun _ w => Guarded w) ?_ ?_ h
  · refine ⟨fun _ _ => rfl, fun _ _ h => absurd rfl h, fun _ h => ?_, fun _ _ h => ?_⟩ <;> cases h
  · intro _ w l w' _ hg hstep
    exact guarded_move (handleMove_of_step hstep) hg

theorem triggered_of_reaches (h : Reaches env cfg tr w) (i : ι) : Triggered tr w i := by
  refine Lts.exec_invariant (P := fun tr w => Triggered tr w i) ?_ ?_ h
  · constructor <;> simp [Firing, Killing, World.init, Run.init]
  · intro tr w l w' _ ht hstep
    exact triggered_move (triggerMove_of_step hstep i) ht

/-- `kill_fired` is set exactly when it was stored for some run. -/
theorem killFired_iff (h : Reaches env cfg tr w) :
    w.handle.killFired = true ↔ ∃ i, tr.any (Label.fires i) = true := by
  refine Lts.exec_invariant
    (P := fun tr w => w.handle.killFired = true ↔ ∃ i, tr.any (Label.fires i) = true) ?_ ?_ h
  · simp [World.init, CancelHandle.new]
  · intro tr w l w' _ ih hstep
    simp only [(handleMove_of_step hstep).killFired, ih, List.any_append, List.any_cons,
      List.any_nil, Bool.or_false, Bool.or_eq_true, exists_or]

/-- Only a run that was given the handle touches it. -/
theorem cancel_of_onHandle (h : Reaches env cfg tr w) {i : ι}
    (hon : (w.runs i).main.onHandle = true) : (cfg i).cancel = true := by
  refine Lts.exec_invariant
    (P := fun _ w => (w.runs i).main.onHandle = true → (cfg i).cancel = true) ?_ ?_ h hon
  · intro h
    change (MainPc.spawn _).onHandle = true at h
    cases h
  · intro _ w l w' _ ih hstep hon
    rcases mainMove_or_stays hstep i with ⟨a, -, h⟩ | ⟨-, hm⟩
    · exact h.edge.onHandle ih hon
    · exact ih (hm ▸ hon)

/-- Only a run that was given the handle is found in its slot. -/
theorem cancel_of_slot (h : Reaches env cfg tr w) {i : ι} (hs : w.handle.kill = some i) :
    (cfg i).cancel = true := by
  refine Lts.exec_invariant
    (P := fun _ w => w.handle.kill = some i → (cfg i).cancel = true) ?_ ?_ h hs
  · intro h
    cases h
  · intro _ w l w' hw ih hstep hs
    cases handleMove_of_step hstep with
    | @main j _ _ _ h =>
      rw [setRun_handle] at hs
      rcases h.handle with rfl | ⟨-, -, rfl⟩ | ⟨pc, -, -, rfl⟩ | ⟨-, -, -, rfl⟩
      · exact ih hs
      · exact ih hs
      · cases hs
        exact cancel_of_onHandle hw (by rw [pc]; rfl)
      · cases hs
    | cancel h => exact ih (by cases h <;> exact hs)
    | inner _ hh => exact ih (hh ▸ hs)

/-- A store of `kill_fired` is on behalf of a run that was given the handle. -/
theorem cancel_of_fires (h : Reaches env cfg tr w) {i : ι}
    (hf : tr.any (Label.fires i) = true) : (cfg i).cancel = true := by
  refine Lts.exec_invariant
    (P := fun tr _ => tr.any (Label.fires i) = true → (cfg i).cancel = true) ?_ ?_ h hf
  · intro h
    cases h
  · intro tr w l w' hw ih hstep hf
    simp only [List.any_append, List.any_cons, List.any_nil, Bool.or_false, Bool.or_eq_true] at hf
    rcases hf with hf | hf
    · exact ih hf
    · cases triggerMove_of_step hstep i with
      | fire _ _ firing =>
        rcases firing with hm | ⟨k, hk⟩
        · exact cancel_of_onHandle hw (by rw [hm]; rfl)
        · exact cancel_of_slot hw ((guarded_of_reaches hw).slot k i (by rw [hk]; rfl))
      | probe _ fires | kill _ _ fires | other _ fires =>
        rw [fires] at hf
        cases hf

end Runs

end AerCore
