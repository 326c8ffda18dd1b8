import AerCore.Deadline
import AerCore.Slot

/-!
# What a kill comes from

Five statements of the program signal a process tree, and each of them stands at the end of
a chain of others.  The monitor kills after its deadline and a probe that answered "alive";
`cancel()` after the swap, the lock and such a probe; the wiring block when it has loaded a
`cancelled` that some call had set, and after such a probe; the drop guard of a run that was
abandoned while its tree was its own to look after; `wait` when it has heard of the root.

Within a call of `kill_escalating` the order is that of the escalation: no `SIGKILL` without
a `SIGTERM` that the group accepted, or that went to the pid where there was no group, a later
probe that answered "alive" and the end of the grace period.

A chain is a list of labels that occurs in the schedule, in this order.

## Main definitions

* `Opens` — how a call of `kill_escalating` begins.
* `KillPc.Past` — what a call of `kill_escalating` has done, by its place.
* `MonitorCause`, `CancelCause`, `WiringCause`, `GuardCause`, `WaitCause` — the chains.
* `Label.Explained` — a kill has its chain behind it.

## Main results

* `past_of_reaches` — the chain of every thread is as long as its place says.
* `kills_are_explained` — **every kill has a cause, and the forced one comes last**.
-/

namespace AerCore

variable {ι : Type*}

/-! ### The escalation -/

section Escalation

variable {α : Type*}

/-- How a call opens: `SIGTERM` is accepted for the group, or there is no group and it is sent
to the pid; `call` makes a label of each step of the call. -/
def Opens (call : KillAct → α) (opening : List α) : Prop :=
  opening = [call (.term .present)] ∨ ∃ y, opening = [call (.term .absent), call (.termPid y)]

/-- What a call of `kill_escalating` has done before it came here. -/
def KillPc.Past (tr : List α) (call : KillAct → α) : KillPc → Prop
  | .termPid => [call (.term .absent)].Sublist tr
  | .poll _ => ∃ opening, Opens call opening ∧ opening.Sublist tr
  | .clock => ∃ opening x, Opens call opening ∧ x ≠ .absent ∧
      (opening ++ [call (.probe x)]).Sublist tr
  | .kill | .killPid => ∃ opening x, Opens call opening ∧ x ≠ .absent ∧
      (opening ++ [call (.probe x), call (.clock true)]).Sublist tr
  | .term | .terminate | .done _ => True

/-- What comes before a signal of `kill_escalating`: a fallback to the pid comes after a group
that did not exist, and `SIGKILL` comes last. -/
def KillAct.Escalates (tr : List α) (call : KillAct → α) : KillAct → Prop
  | .termPid _ => [call (.term .absent)].Sublist tr
  | .kill _ | .killPid _ => ∃ opening x, Opens call opening ∧ x ≠ .absent ∧
      (opening ++ [call (.probe x), call (.clock true)]).Sublist tr
  | .term _ | .probe _ | .clock _ | .terminate _ => True

variable {env : Env} {grace : Grace} {t t' : Tree} {k k' : KillPc} {a : KillAct}
  {tr tr' : List α} {call : KillAct → α}

theorem KillPc.Past.mono (hsub : tr.Sublist tr') (h : k.Past tr call) : k.Past tr' call := by
  cases k with
  | termPid => exact List.Sublist.trans h hsub
  | poll p =>
    obtain ⟨opening, hy, hs⟩ := h
    exact ⟨opening, hy, hs.trans hsub⟩
  | clock | kill | killPid =>
    obtain ⟨opening, x, hy, hx, hs⟩ := h
    exact ⟨opening, x, hy, hx, hs.trans hsub⟩
  | term | terminate | done => trivial

theorem KillMove.past (h : KillMove env grace t k a t' k') (hk : k.Past tr call) :
    k'.Past (tr ++ [call a]) call := by
  have hsub : tr.Sublist (tr ++ [call a]) := List.sublist_append_left _ _
  cases h with
  | termPresent => exact ⟨_, .inl rfl, List.sublist_append_right _ _⟩
  | termAbsent => exact List.sublist_append_right _ _
  | @termPid r => exact ⟨_, .inr ⟨r, rfl⟩, List.Sublist.append_right hk [call (.termPid r)]⟩
  | probeMore => exact KillPc.Past.mono hsub hk
  | @probeAlive p r h =>
    obtain ⟨opening, hy, hs⟩ := hk
    have hr : r ≠ .absent := by simpa using treeAliveStep_eq_answer h
    exact ⟨opening, r, hy, hr, hs.append_right [call (.probe r)]⟩
  | sleep =>
    -- back to the poll, with the same `SIGTERM` behind it
    obtain ⟨opening, x, hy, -, hs⟩ := hk
    exact ⟨opening, hy, ((List.sublist_append_left opening _).trans hs).trans hsub⟩
  | expired =>
    obtain ⟨opening, x, hy, hx, hs⟩ := hk
    refine ⟨opening, x, hy, hx, ?_⟩
    simpa using hs.append_right [call (.clock true)]
  | killAbsent => exact KillPc.Past.mono (k := .kill) hsub hk
  | _ => trivial

theorem KillMove.escalates (h : KillMove env grace t k a t' k') (hk : k.Past tr call) :
    a.Escalates tr call := by
  cases h with
  | termPid | killPresent | killAbsent | killRefused | killPidPresent | killPidFails => exact hk
  | _ => trivial

end Escalation

/-! ### The chains -/

/-- The deadline fired, and the monitor then found the tree alive. -/
def MonitorCause (i : ι) (tr : List (Label ι)) : Prop :=
  ∃ x, x ≠ .absent ∧ [Label.main i (.startMonitor true), .monitor i .deadline,
    .monitor i (.probe x), .monitor i .store].Sublist tr

/-- The call set `cancelled`, took the lock, and found the tree of run `i` alive. -/
def CancelCause (k : CallerId ι) (i : ι) (tr : List (Label ι)) : Prop :=
  ∃ x, x ≠ .absent ∧ [Label.cancel k (.swap false), .cancel k .lock, .cancel k (.probe i x),
    .cancel k (.fire i)].Sublist tr

/-- Some call set `cancelled` before the wiring block loaded it and found the tree alive. -/
def WiringCause (i : ι) (tr : List (Label ι)) : Prop :=
  ∃ k x, x ≠ .absent ∧ [Label.cancel k (.swap false), .main i (.loadCancelled true),
    .main i (.probe x), .main i .fire].Sublist tr

/-- The run was abandoned: the callback panicked, a thread could not be started or
`child.wait()` failed. -/
def GuardCause [DecidableEq ι] (i : ι) (tr : List (Label ι)) : Prop :=
  (.main i .startedPanics ∈ tr ∨ tr.any (Label.fails i) = true) ∧ .main i .dropLocals ∈ tr

/-- `child.wait()` has returned. -/
def WaitCause (i : ι) (tr : List (Label ι)) : Prop := ∃ r, .wait i (.childWait r) ∈ tr

/-- What a step that signals a tree has behind it. -/
def Label.Explained [DecidableEq ι] (tr : List (Label ι)) : Label ι → Prop
  | .monitor i (.kill a) => MonitorCause i tr ∧ a.Escalates tr fun a => .monitor i (.kill a)
  | .cancel k (.kill i a) =>
      CancelCause k i tr ∧ a.Escalates tr fun a => .cancel k (.kill i a)
  | .main i (.kill a) => WiringCause i tr ∧ a.Escalates tr fun a => .main i (.kill a)
  | .main i (.guardKill a) => GuardCause i tr ∧ a.Escalates tr fun a => .main i (.guardKill a)
  | .wait i (.killTree _) => WaitCause i tr
  | _ => True

/-! ### What each thread has done -/

/-- What the monitor has done, by its place. -/
def MonitorPc.Past (i : ι) (tr : List (Label ι)) : MonitorPc → Prop
  | .recv => [Label.main i (.startMonitor true)].Sublist tr
  | .probe _ => [Label.main i (.startMonitor true), .monitor i .deadline].Sublist tr
  | .store => ∃ x, x ≠ .absent ∧ [Label.main i (.startMonitor true), .monitor i .deadline,
      .monitor i (.probe x)].Sublist tr
  | .kill k => MonitorCause i tr ∧ k.Past tr fun a => .monitor i (.kill a)
  | .idle | .done => True

/-- What a call of `cancel()` has done, by its place. -/
def Caller.Past (k : CallerId ι) (tr : List (Label ι)) : Caller ι → Prop
  | .lock => [Label.cancel k (.swap false)].Sublist tr
  | .probe _ _ => [Label.cancel k (.swap false), .cancel k .lock].Sublist tr
  | .fire i => ∃ x, x ≠ .absent ∧ [Label.cancel k (.swap false), .cancel k .lock,
      .cancel k (.probe i x)].Sublist tr
  | .kill i p => CancelCause k i tr ∧ p.Past tr fun a => .cancel k (.kill i a)
  | .idle | .unlock => True

/-- What `wait` has done, by its place. -/
def WaitPc.Past (i : ι) (tr : List (Label ι)) : WaitPc → Prop
  | .killTree _ => WaitCause i tr
  | _ => True

/-- What the run thread has done, by its place, and why its guard is armed at the end. -/
def Run.MainPast [DecidableEq ι] (i : ι) (tr : List (Label ι)) (r : Run) : MainPc → Prop
  | .loadFired | .probe _ => ∃ k,
      [Label.cancel k (.swap false), .main i (.loadCancelled true)].Sublist tr
  | .fire => ∃ k x, x ≠ .absent ∧ [Label.cancel k (.swap false),
      .main i (.loadCancelled true), .main i (.probe x)].Sublist tr
  | .kill p => WiringCause i tr ∧ p.Past tr fun a => .main i (.kill a)
  | .guardKill p _ => GuardCause i tr ∧ p.Past tr fun a => .main i (.guardKill a)
  | .clear _ | .stopMonitor _ | .loadTimedOut _ | .loadKillFired _ _ | .toExited _ _ _
  | .inExited _ _ => r.armed = false
  | .leave _ => r.armed = true → .main i .startedPanics ∈ tr ∨ tr.any (Label.fails i) = true
  | _ => True

section Moves

variable {env : Env} {c : RunConfig} {i : ι} {hd hd' : CancelHandle ι} {r r' : Run}
  {tr tr' : List (Label ι)}

theorem MonitorCause.mono (hsub : tr.Sublist tr') (h : MonitorCause i tr) :
    MonitorCause i tr' := by
  obtain ⟨x, hx, hs⟩ := h
  exact ⟨x, hx, hs.trans hsub⟩

theorem CancelCause.mono {k : CallerId ι} (hsub : tr.Sublist tr') (h : CancelCause k i tr) :
    CancelCause k i tr' := by
  obtain ⟨x, hx, hs⟩ := h
  exact ⟨x, hx, hs.trans hsub⟩

theorem WiringCause.mono (hsub : tr.Sublist tr') (h : WiringCause i tr) :
    WiringCause i tr' := by
  obtain ⟨k, x, hx, hs⟩ := h
  exact ⟨k, x, hx, hs.trans hsub⟩

theorem MonitorPc.Past.mono {m : MonitorPc} (hsub : tr.Sublist tr') (h : m.Past i tr) :
    m.Past i tr' := by
  cases m with
  | idle | done => trivial
  | recv | probe => exact List.Sublist.trans h hsub
  | store =>
    obtain ⟨x, hx, hs⟩ := h
    exact ⟨x, hx, hs.trans hsub⟩
  | kill => exact ⟨h.1.mono hsub, h.2.mono hsub⟩

theorem Caller.Past.mono {k : CallerId ι} {q : Caller ι} (hsub : tr.Sublist tr')
    (h : q.Past k tr) : q.Past k tr' := by
  cases q with
  | idle | unlock => trivial
  | lock | probe => exact List.Sublist.trans h hsub
  | fire =>
    obtain ⟨x, hx, hs⟩ := h
    exact ⟨x, hx, hs.trans hsub⟩
  | kill => exact ⟨h.1.mono hsub, h.2.mono hsub⟩

theorem WaitPc.Past.mono {p : WaitPc} (hsub : tr.Sublist tr') (h : p.Past i tr) :
    p.Past i tr' := by
  cases p with
  | killTree res =>
    obtain ⟨x, hx⟩ := h
    exact ⟨x, hsub.subset hx⟩
  | _ => trivial

/-- At its first call `kill_escalating` has done nothing. -/
theorem KillPc.past_entry {α : Type*} (tr : List α) (call : KillAct → α) (p : Platform) :
    (KillPc.entry p).Past tr call := by
  cases p <;> trivial

/-- A step of the monitor makes its chain one longer. -/
theorem MonitorMove.past {a : MonitorAct} (h : MonitorMove env r a r')
    (hm : r.monitor.Past i tr) : r'.monitor.Past i (tr ++ [Label.monitor i a]) := by
  have hsub : tr.Sublist (tr ++ [Label.monitor i a]) := List.sublist_append_left _ _
  cases h with
  | message | disconnected | probeDead | killDone => trivial
  | deadline pc =>
    rw [pc] at hm
    exact List.Sublist.append_right hm [_]
  | probeMore pc =>
    rw [pc] at hm
    exact List.Sublist.trans hm hsub
  | @probeAlive p x pc h =>
    rw [pc] at hm
    have hx : x ≠ .absent := by simpa using treeAliveStep_eq_answer h
    exact ⟨x, hx, List.Sublist.append_right hm [_]⟩
  | store pc =>
    rw [pc] at hm
    obtain ⟨x, hx, hs⟩ := hm
    exact ⟨⟨x, hx, hs.append_right [_]⟩, KillPc.past_entry _ _ _⟩
  | killMore pc h =>
    rw [pc] at hm
    exact ⟨hm.1.mono hsub, (killMove_of_step h).past hm.2⟩

/-- So does a step of a call of `cancel()`. -/
theorem CancelMove.past [DecidableEq ι] {w w' : World ι} {k : CallerId ι} {a : CancelAct ι}
    (h : CancelMove env w k a w') (hk : (w.callers k).Past k tr) :
    (w'.callers k).Past k (tr ++ [Label.cancel k a]) := by
  have hsub : tr.Sublist (tr ++ [Label.cancel k a]) := List.sublist_append_left _ _
  cases h with
  | swapFirst =>
    rw [setCaller_callers_self]
    exact List.sublist_append_right _ _
  | swapAgain | lockEmpty | probeDead | killDone | unlock =>
    rw [setCaller_callers_self]
    trivial
  | lockWired pc =>
    rw [pc] at hk
    rw [setCaller_callers_self]
    exact List.Sublist.append_right hk [_]
  | probeMore pc =>
    rw [pc] at hk
    rw [setCaller_callers_self]
    exact List.Sublist.trans hk hsub
  | @probeAlive j p x pc h =>
    rw [pc] at hk
    rw [setCaller_callers_self]
    have hx : x ≠ .absent := by simpa using treeAliveStep_eq_answer h
    exact ⟨x, hx, List.Sublist.append_right hk [_]⟩
  | fire pc =>
    rw [pc] at hk
    rw [setCaller_callers_self]
    obtain ⟨x, hx, hs⟩ := hk
    exact ⟨⟨x, hx, hs.append_right [_]⟩, KillPc.past_entry _ _ _⟩
  | killMore pc h =>
    rw [pc] at hk
    rw [setCaller_callers_self]
    exact ⟨hk.1.mono hsub, (killMove_of_step h).past hk.2⟩

/-- The cleanup of the group comes after `child.wait()`. -/
theorem WaitMove.past {capture : Bool} {t t' : Tree} {o o' : Output} {x x' : Waiter}
    {a : WaitAct} (h : WaitMove env capture t o x a t' o' x') :
    x'.pc.Past i (tr ++ [Label.wait i a]) := by
  have hwait : ∀ {y : Except IoError Unit} {res : Except IoError (Option ℤ)}, a = .childWait y →
      (WaitPc.afterChildWait env.platform res).Past i (tr ++ [Label.wait i a]) := by
    rintro y res rfl
    have hy : WaitCause i (tr ++ [Label.wait i (.childWait y)]) :=
      ⟨y, List.mem_append_right _ (List.mem_singleton_self _)⟩
    cases env.platform with
    | unix => exact hy
    | windows =>
      cases res with
      | ok => exact hy
      | error => trivial
  cases h with
  | childWait => exact hwait rfl
  | childWaitFails => exact hwait rfl
  | _ => trivial

section Main

variable [DecidableEq ι]

theorem GuardCause.mono (hsub : tr.Sublist tr') (h : GuardCause i tr) : GuardCause i tr' := by
  refine ⟨h.1.imp (fun hp => hsub.subset hp) fun hf => ?_, hsub.subset h.2⟩
  obtain ⟨l, hl, hfail⟩ := List.any_eq_true.mp hf
  exact List.any_eq_true.mpr ⟨l, hsub.subset hl, hfail⟩

/-- Steps of other threads leave the past of the run thread behind it. -/
theorem Run.MainPast.mono {m : MainPc} (hsub : tr.Sublist tr') (h : r.MainPast i tr m) :
    r.MainPast i tr' m := by
  cases m with
  | loadFired | probe =>
    obtain ⟨k, hs⟩ := h
    exact ⟨k, hs.trans hsub⟩
  | fire =>
    obtain ⟨k, x, hx, hs⟩ := h
    exact ⟨k, x, hx, hs.trans hsub⟩
  | kill => exact ⟨h.1.mono hsub, h.2.mono hsub⟩
  | guardKill => exact ⟨h.1.mono hsub, h.2.mono hsub⟩
  | leave o =>
    intro harmed
    refine (h harmed).imp (fun hp => hsub.subset hp) fun hf => ?_
    obtain ⟨l, hl, hfail⟩ := List.any_eq_true.mp hf
    exact List.any_eq_true.mpr ⟨l, hsub.subset hl, hfail⟩
  | clear | stopMonitor | loadTimedOut | loadKillFired | toExited | inExited => exact h
  | _ => trivial

/-- The run thread goes on after `wait` with the guard disarmed, or it has met a failure. -/
theorem Run.mainPast_afterWait {res : Except AerError ℤ}
    (hf : ∀ e, res = .error e → tr.any (Label.fails i) = true) :
    (r.afterWait c res).MainPast i tr (r.afterWait c res).main := by
  cases res with
  | ok code =>
    simp only [Run.afterWait]
    split <;> rfl
  | error e => exact fun _ => .inr (hf e rfl)

/-- A step of the run thread makes its chain one longer, or keeps what is said of the
guard. -/
theorem MainMove.past {a : MainAct} (h : MainMove env c i hd r a hd' r') (hl : Lifecycle c r)
    (hf : Faults c i tr r) (hcan : hd.cancelled = true → ∃ k, .cancel k (.swap false) ∈ tr)
    (hm : r.MainPast i tr r.main) : r'.MainPast i (tr ++ [Label.main i a]) r'.main := by
  have hsub : tr.Sublist (tr ++ [Label.main i a]) := List.sublist_append_left _ _
  have hnew : a.fails = true → (tr ++ [Label.main i a]).any (Label.fails i) = true :=
    fun ha => by simp [Label.fails, ha]
  have hold : tr.any (Label.fails i) = true →
      (tr ++ [Label.main i a]).any (Label.fails i) = true :=
    fun h => by simp only [List.any_append, h, Bool.true_or]
  cases h with
  | startedRefused pc h =>
    -- the machine is still in `Created`, so this transition is not refused
    have hev := hl.events
    rw [pc] at hev
    simp [StateMachine.transition, hev.2] at h
  | startedPanics => exact fun _ => .inl (List.mem_append_right _ (List.mem_singleton_self _))
  | loadCancelled =>
    split
    · next hc =>
      obtain ⟨k, hk⟩ := hcan hc
      rw [hc]
      exact ⟨k, (List.singleton_sublist.mpr hk).append_right [_]⟩
    · trivial
  | loadFired pc =>
    rw [pc] at hm
    simp only
    split
    · trivial
    · obtain ⟨k, hs⟩ := hm
      exact ⟨k, hs.trans hsub⟩
  | probeMore pc =>
    rw [pc] at hm
    obtain ⟨k, hs⟩ := hm
    exact ⟨k, hs.trans hsub⟩
  | @probeAlive p x pc h =>
    rw [pc] at hm
    obtain ⟨k, hs⟩ := hm
    have hx : x ≠ .absent := by simpa using treeAliveStep_eq_answer h
    exact ⟨k, x, hx, hs.append_right [_]⟩
  | fire pc =>
    rw [pc] at hm
    obtain ⟨k, x, hx, hs⟩ := hm
    exact ⟨⟨k, x, hx, hs.append_right [_]⟩, KillPc.past_entry _ _ _⟩
  | killMore pc h =>
    rw [pc] at hm
    exact ⟨hm.1.mono hsub, (killMove_of_step h).past hm.2⟩
  | startedReturns => simp only; split <;> trivial
  | startMonitor | noMonitor => simp only [RunConfig.afterMonitor]; split <;> trivial
  | startMonitorFails | startWaitFails | chunkPanics => exact fun _ => .inr (hnew rfl)
  | recvWaitLost _ _ panicked | waitPanicked _ panicked =>
    exact fun _ => .inr (hold (hf.failed (.inl (by rw [panicked]; rfl))))
  | joinWait pc =>
    refine Run.mainPast_afterWait fun e he => ?_
    subst he
    exact hold (hf.join e pc)
  | waitReturned pc returned =>
    refine Run.mainPast_afterWait fun e he => ?_
    subst he
    exact hold (hf.failed (.inl (by rw [returned]; rfl)))
  | clear pc | stopMonitor pc | loadTimedOut pc | loadKillFired pc | exited pc =>
    rw [pc] at hm
    exact hm
  | exitedRefused pc | exitedReturns pc | exitedPanics pc =>
    rw [pc] at hm
    intro harmed
    exact absurd (hm.symm.trans harmed) Bool.false_ne_true
  | dropLocals pc =>
    rw [pc] at hm
    simp only
    split
    · next harmed =>
      refine ⟨⟨(hm harmed).imp (fun hp => hsub.subset hp) hold, ?_⟩, KillPc.past_entry _ _ _⟩
      exact List.mem_append_right _ (List.mem_singleton_self _)
    · trivial
  | guardMore pc h =>
    rw [pc] at hm
    exact ⟨hm.1.mono hsub, (killMove_of_step h).past hm.2⟩
  | _ => trivial

end Main

/-! A signal is sent from a place with its chain behind it. -/

theorem MainMove.explained [DecidableEq ι] {a : MainAct} (h : MainMove env c i hd r a hd' r')
    (hm : r.MainPast i tr r.main) : (Label.main i a).Explained tr := by
  cases h with
  | killMore pc hk | killDone pc hk | guardMore pc hk | guardDone pc hk =>
    rw [pc] at hm
    exact ⟨hm.1, (killMove_of_step hk).escalates hm.2⟩
  | _ => trivial

theorem MonitorMove.explained [DecidableEq ι] {a : MonitorAct} (h : MonitorMove env r a r')
    (hm : r.monitor.Past i tr) : (Label.monitor i a).Explained tr := by
  cases h with
  | killMore pc hk | killDone pc hk =>
    rw [pc] at hm
    exact ⟨hm.1, (killMove_of_step hk).escalates hm.2⟩
  | _ => trivial

theorem WaitMove.explained [DecidableEq ι] {capture : Bool} {t t' : Tree} {o o' : Output}
    {x x' : Waiter} {a : WaitAct} (h : WaitMove env capture t o x a t' o' x')
    (hx : x.pc.Past i tr) : (Label.wait i a).Explained tr := by
  cases h with
  | killTree pc =>
    rw [pc] at hx
    exact hx
  | _ => trivial

theorem CancelMove.explained [DecidableEq ι] {w w' : World ι} {k : CallerId ι} {a : CancelAct ι}
    (h : CancelMove env w k a w') (hk : (w.callers k).Past k tr) :
    (Label.cancel k a).Explained tr := by
  cases h with
  | killMore pc h | killDone pc h =>
    rw [pc] at hk
    exact ⟨hk.1, (killMove_of_step h).escalates hk.2⟩
  | _ => trivial

end Moves

/-! ### Whole runs -/

/-- What every thread has done, by its place. -/
structure Pasts [DecidableEq ι] (tr : List (Label ι)) (w : World ι) : Prop where
  main : ∀ i, (w.runs i).MainPast i tr (w.runs i).main
  monitor : ∀ i, (w.runs i).monitor.Past i tr
  wait : ∀ i, (w.runs i).waiter.pc.Past i tr
  caller : ∀ k, (w.callers k).Past k tr

section Runs

variable [DecidableEq ι] {env : Env} {cfg : ι → RunConfig} {tr : List (Label ι)} {w w' : World ι}
  {l : Label ι}

theorem Pasts.main_step (hp : Pasts tr w) (h : Reaches env cfg tr w)
    (hstep : step env cfg w l = some w') (i : ι) :
    (w'.runs i).MainPast i (tr ++ [l]) (w'.runs i).main := by
  have hsub : tr.Sublist (tr ++ [l]) := List.sublist_append_left _ _
  have hm := hp.main i
  have hl := lifecycle_of_reaches h i
  have hf := faults_of_reaches h i
  have hmove := runMove_of_step hstep i
  generalize w.runs i = r, w'.runs i = r' at hm hl hf hmove
  cases hmove with
  | main h' => exact h'.past hl hf (cancelled_iff h).mp hm
  | monitor h' =>
    -- the monitor leaves the guard and the run thread alone
    cases h' <;> exact hm.mono hsub
  | wait | drain | proc | cancelKill => exact hm.mono hsub
  | other => exact hm.mono hsub

theorem Pasts.monitor_step (hp : Pasts tr w) (hstep : step env cfg w l = some w') (i : ι) :
    (w'.runs i).monitor.Past i (tr ++ [l]) := by
  have hsub : tr.Sublist (tr ++ [l]) := List.sublist_append_left _ _
  have hm := hp.monitor i
  have hmove := runMove_of_step hstep i
  generalize w.runs i = r, w'.runs i = r' at hm hmove
  cases hmove with
  | main h =>
    cases h with
    | startMonitor => exact List.sublist_append_right _ _
    | @joinWait res | @waitReturned res => cases res <;> exact hm.mono hsub
    | _ => exact hm.mono hsub
  | monitor h => exact h.past hm
  | wait | drain | proc | cancelKill | other => exact hm.mono hsub

theorem Pasts.wait_step (hp : Pasts tr w) (hstep : step env cfg w l = some w') (i : ι) :
    (w'.runs i).waiter.pc.Past i (tr ++ [l]) := by
  rcases (runMove_of_step hstep i).waiter_pc with heq | hstart | ⟨a, t, o, rfl, h⟩
  · rw [heq]
    exact WaitPc.Past.mono (List.sublist_append_left _ _) (hp.wait i)
  · rw [hstart]
    trivial
  · exact h.past

theorem Pasts.caller_step (hp : Pasts tr w) (hstep : step env cfg w l = some w')
    (k : CallerId ι) : (w'.callers k).Past k (tr ++ [l]) := by
  have hsub : tr.Sublist (tr ++ [l]) := List.sublist_append_left _ _
  have hk := (hp.caller k).mono hsub
  cases handleMove_of_step hstep with
  | main => exact hk
  | @cancel k' _ _ h =>
    by_cases hkk : k = k'
    · subst hkk
      exact h.past (hp.caller k)
    · rw [h.callers_ne hkk]
      exact hk
  | inner _ _ callers =>
    rw [callers]
    exact hk

/-- **The chain of every thread is as long as its place says.** -/
theorem past_of_reaches (h : Reaches env cfg tr w) : Pasts tr w := by
  refine Lts.exec_invariant (P := Pasts) ?_ ?_ h
  · exact ⟨fun _ => trivial, fun _ => trivial, fun _ => trivial, fun _ => trivial⟩
  · intro tr w l w' hw hp hstep
    exact ⟨hp.main_step hw hstep, hp.monitor_step hstep, hp.wait_step hstep,
      hp.caller_step hstep⟩

/-- **Every kill has a cause, and the forced one comes last.**  A step that signals a tree
comes after the whole chain of its thread: the deadline and a live tree; the first swap, the
lock and a live tree; a swap, the load that saw it and a live tree; a run that was abandoned;
`child.wait()`.  Its escalation is in order as well. -/
theorem kills_are_explained {pre post : List (Label ι)}
    (h : Reaches env cfg (pre ++ l :: post) w) : l.Explained pre := by
  obtain ⟨m, hm, h⟩ := Lts.exec_append_eq_some.mp h
  obtain ⟨m', hstep, -⟩ := Option.bind_eq_some_iff.mp h
  have hp := past_of_reaches hm
  cases l with
  | main i a =>
    rcases mainMove_or_stays hstep i with ⟨b, hb, hmove⟩ | ⟨hne, -⟩
    · cases hb
      exact hmove.explained (hp.main i)
    · exact absurd rfl (hne a)
  | monitor i a =>
    obtain ⟨r, hr, -⟩ := Option.map_eq_some_iff.mp hstep
    exact (monitorMove_of_step hr).explained (hp.monitor i)
  | wait i a =>
    obtain ⟨⟨t, o, x⟩, hx, -⟩ := Option.map_eq_some_iff.mp hstep
    exact (waitMove_of_step hx).explained (hp.wait i)
  | cancel k a => exact (cancelMove_of_step hstep).explained (hp.caller k)
  | drain | proc => trivial

end Runs

/-- The forced signal of a monitor: the deadline, a live tree, `SIGTERM`, a live tree again and
the end of the grace period lie behind it. -/
theorem timedOutRun_kill_is_explained :
    ∃ w, Reaches Env.posixOpen (fun _ => ⟨some 1000, false, true⟩) (timedOutRun []) w ∧
      (Label.monitor () (.kill (.kill .present))).Explained (timedOutRun []).dropLast := by
  obtain ⟨w, hw, -⟩ : ∃ w,
      Reaches Env.posixOpen (fun _ => ⟨some 1000, false, true⟩) (timedOutRun []) w ∧
      (w.runs ()).monitor = .done := Lts.exists_exec_of_any (by decide +kernel)
  have hsplit : Reaches Env.posixOpen (fun _ => ⟨some 1000, false, true⟩)
      ((timedOutRun []).dropLast ++ .monitor () (.kill (.kill .present)) :: []) w := hw
  exact ⟨w, hw, kills_are_explained hsplit⟩

end AerCore
