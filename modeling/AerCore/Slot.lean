import AerCore.Signals

/-!
# The kill slot at the end of a run

The kill handle is stored in the slot and taken out of it by two plain statements of
`run_impl`.  Between them control can leave: a thread cannot be started, the callback
panics at a chunk, `child.wait()` fails.  The kill guard looks after the tree on these
ways out, but nothing looks after the slot, so it is empty at the end exactly of the runs
in which none of this happens.

## Main definitions

* `Label.fails` — a failure between the two stores to the slot.
* `Spoiled` — a run that has met one, by the place of its run thread.
* `Faults` — the failures among the labels and their traces in the run.

## Main results

* `faults_of_reaches` — the invariant.
* `slot_is_cleared_iff_nothing_failed` — **when the slot does not outlive the run**.
* `abandonedWait_leaves_slot_behind` — a panic at a chunk does leave it behind.
-/

namespace AerCore

variable {ι : Type*}

/-! ### Failures -/

/-- The monitor or the wait thread cannot be started, or the callback panics at a chunk. -/
def MainAct.fails : MainAct → Bool
  | .startMonitor ok | .startWait ok => !ok
  | .chunkPanics => true
  | _ => false

/-- A drain thread cannot be started, or `child.wait()` fails. -/
def WaitAct.fails : WaitAct → Bool
  | .startOut ok | .startErr ok => !ok
  | .childWait (.error _) => true
  | _ => false

/-- A failure of run `i`. -/
def Label.fails [DecidableEq ι] (i : ι) : Label ι → Bool
  | .main j a => decide (j = i) && a.fails
  | .wait j a => decide (j = i) && a.fails
  | _ => false

/-- `wait` has panicked, or has an error to report. -/
def WaitPc.failed : WaitPc → Bool
  | .panicked | .killTree (.error _) | .joinOut (.error _) | .joinErr (.error _)
  | .returned (.error _) => true
  | _ => false

/-- A failure of `wait` that the run thread has not heard of. -/
def Waiter.Failed (x : Waiter) : Prop :=
  x.pc.failed = true ∨ ∃ e, x.msg = some (.error e)

/-- Control has left the body of `run_impl`. -/
def MainPc.left : MainPc → Bool
  | .leave _ | .guardKill _ _ | .guardReap _ | .finished _ => true
  | _ => false

/-- The slot has not been stored yet. -/
def MainPc.beforeWire : MainPc → Bool
  | .spawn _ | .toRunning _ | .inStarted | .wire => true
  | _ => false

/-- The run has met a failure: it has left, or `wait` has failed and the run thread is on
its way to hear of it. -/
def Spoiled (x : Waiter) : MainPc → Prop
  | .pump | .inChunk | .recvWait | .inWait => x.Failed
  | .joinWait res => ∃ e, res = .error e
  | .leave _ | .guardKill _ _ | .guardReap _ | .finished _ => True
  | _ => False

/-- The failures among the labels and the state of the run. -/
structure Faults [DecidableEq ι] (c : RunConfig) (i : ι) (tr : List (Label ι)) (r : Run) :
    Prop where
  /-- A failure is not got over. -/
  spoiled : tr.any (Label.fails i) = true → Spoiled r.waiter r.main
  /-- A failed `wait` comes from a failure. -/
  failed : r.waiter.Failed → tr.any (Label.fails i) = true
  /-- So does an error on the run thread. -/
  join : ∀ e, r.main = .joinWait (.error e) → tr.any (Label.fails i) = true
  /-- Failures come between the two stores to the slot. -/
  between : tr.any (Label.fails i) = true → .main i .clear ∉ tr ∧
    (c.cancel = true → .main i .wire ∈ tr)
  /-- The run leaves with the slot stored only after a failure. -/
  left : c.cancel = true → r.main.left = true → .main i .wire ∈ tr → .main i .clear ∉ tr →
    tr.any (Label.fails i) = true

section Moves

variable {env : Env} {c : RunConfig} {i : ι} {hd hd' : CancelHandle ι} {r r' : Run}
  {l : Label ι}

/-- Where the run stands at a failure. -/
theorem RunMove.fails [DecidableEq ι] (h : RunMove env c i hd r l r') (hl : l.fails i = true) :
    (r.main.wired = true ∧ r.main.afterClear = false ∧ r'.main.left = true) ∨
      (r.waiter.pc.closed = false ∧ r'.main = r.main ∧ r'.waiter.pc.failed = true) := by
  cases h with
  | main h =>
    refine .inl ?_
    cases h with
    | startMonitorFails pc | startWaitFails pc | chunkPanics pc =>
      rw [pc]
      exact ⟨rfl, rfl, rfl⟩
    | _ => simp [Label.fails, MainAct.fails] at hl
  | wait h =>
    refine .inr ?_
    cases h with
    | startOutFails pc | startErrFails pc =>
      rw [pc]
      exact ⟨rfl, rfl, rfl⟩
    | childWaitFails pc =>
      rw [pc]
      exact ⟨rfl, rfl, by cases env.platform <;> rfl⟩
    | _ => simp [Label.fails, WaitAct.fails] at hl
  | monitor | drain | proc | cancelKill => cases hl
  | other ht => cases l <;> simp_all [Label.fails, Label.touches]

/-- `wait` does not get over a failure. -/
theorem WaitMove.failed {capture : Bool} {t t' : Tree} {o o' : Output} {x x' : Waiter}
    {a : WaitAct} (h : WaitMove env capture t o x a t' o' x') (hs : x.Sent) (hx : x.Failed) :
    x'.Failed := by
  rcases hx with hpc | ⟨e, hmsg⟩
  · cases h with
    | @killTree res _ _ pc | @joinOut res pc | @joinErr res pc =>
      rw [pc] at hpc
      cases res with
      | ok => cases hpc
      | error e => exact .inl rfl
    | @send res pc =>
      rw [pc] at hpc
      cases res with
      | ok => cases hpc
      | error e => exact .inr ⟨e, rfl⟩
    | _ pc => rw [pc] at hpc; cases hpc
  · -- the message has been sent, so only the end of the thread is left
    have hsent := hs (by rw [hmsg]; simp)
    cases h with
    | exit => exact .inr ⟨e, hmsg⟩
    | _ pc => rcases hsent with hp | hp <;> rw [pc] at hp <;> cases hp

/-- A failure of `wait` is new, or was there. -/
theorem WaitMove.of_failed {capture : Bool} {t t' : Tree} {o o' : Output} {x x' : Waiter}
    {a : WaitAct} (h : WaitMove env capture t o x a t' o' x') (hx : x'.Failed) :
    x.Failed ∨ a.fails = true := by
  rcases hx with hpc | ⟨e, hmsg⟩
  · cases h with
    | startOut | startErr | send | exit => cases hpc
    | startOutFails | startErrFails | childWaitFails => exact .inr rfl
    | childWait => revert hpc; cases env.platform <;> simp [WaitPc.afterChildWait, WaitPc.failed]
    | @killTree res _ _ pc | @joinOut res pc | @joinErr res pc =>
      cases res with
      | ok => cases hpc
      | error e => exact .inl (.inl (by rw [pc]; rfl))
  · rcases h.msg hmsg with hm | hm
    · exact .inl (.inr ⟨e, hm⟩)
    · exact .inl (.inl (by rw [hm]; rfl))

/-- The run thread does not get over a failure. -/
theorem MainMove.spoiled {a : MainAct} (h : MainMove env c i hd r a hd' r') (hs : r.waiter.Sent)
    (hr : Spoiled r.waiter r.main) : Spoiled r'.waiter r'.main := by
  cases h with
  | recv pc | recvClosed pc | chunkReturns pc => rw [pc] at hr; exact hr
  | startMonitorFails | startWaitFails | chunkPanics | recvWaitLost | waitPanicked | exitedRefused
  | exitedReturns | exitedPanics | startedRefused | startedPanics | spawnFailed => trivial
  | dropLocals => simp only; split <;> trivial
  | guardMore | guardDone | guardReap => trivial
  | @recvWait res pc msg =>
    rw [pc] at hr
    rcases hr with hpc | ⟨e, hmsg⟩
    · rcases hs (by rw [msg]; simp) with hp | hp <;> rw [hp] at hpc <;> cases hpc
    · rw [msg] at hmsg
      cases hmsg
      exact ⟨e, rfl⟩
  | @joinWait res pc =>
    rw [pc] at hr
    obtain ⟨e, rfl⟩ := hr
    trivial
  | @waitReturned res pc returned =>
    rw [pc] at hr
    rcases hr with hpc | ⟨e, hmsg⟩
    · rw [returned] at hpc
      cases res with
      | ok => cases hpc
      | error e => trivial
    · rcases hs (by rw [hmsg]; simp) with hp | hp <;> rw [returned] at hp <;> cases hp
  | _ pc => rw [pc] at hr; exact hr.elim

theorem Spoiled.mono {x x' : Waiter} {m : MainPc} (hx : x.Failed → x'.Failed)
    (h : Spoiled x m) : Spoiled x' m := by
  cases m with
  | pump | inChunk | recvWait | inWait => exact hx h
  | joinWait | leave | guardKill | guardReap | finished => exact h
  | _ => exact h.elim

theorem spoiled_of_left {x : Waiter} {m : MainPc} (h : m.left = true) : Spoiled x m := by
  cases m <;> trivial

/-- A `wait` that is under way has not answered, so the run thread is waiting for it or
has left. -/
theorem spoiled_of_failed {x : Waiter} (ha : Answered env r) (hd : WaitDone c r.waiter r.main)
    (hopen : r.waiter.pc.closed = false) (hx : x.pc.failed = true) : Spoiled x r.main := by
  have hbefore : r.main.beforeWait ≠ true := fun hb => by
    rw [ha.before hb] at hopen
    cases hopen
  have hanswer : ∀ res, r.main.answer? ≠ some res := fun res hres => by
    rw [WaitPc.closed_of_answered (ha.main res hres).1] at hopen
    cases hopen
  generalize r.main = m at hbefore hanswer hd
  cases m with
  | pump | inChunk | recvWait | inWait => exact .inl hx
  | leave | guardKill | guardReap | finished => trivial
  | joinWait | clear | stopMonitor | loadTimedOut | loadKillFired | toExited =>
    exact absurd rfl (hanswer _)
  | inExited =>
    change r.waiter.pc.closed = true at hd
    rw [hopen] at hd
    cases hd
  | _ => exact absurd rfl hbefore

theorem spoiled_move [DecidableEq ι] (h : RunMove env c i hd r l r') (ha : Answered env r)
    (hd : WaitDone c r.waiter r.main) (hs : r.waiter.Sent)
    (hr : Spoiled r.waiter r.main ∨ l.fails i = true) : Spoiled r'.waiter r'.main := by
  rcases hr with hr | hl
  · cases h with
    | main h => exact h.spoiled hs hr
    | monitor h =>
      have hwaiter := h.waiter_eq
      rw [hwaiter, h.main_eq]
      exact hr
    | wait h => exact hr.mono (h.failed hs)
    | drain | proc | cancelKill | other => exact hr
  · rcases h.fails hl with ⟨-, -, hleft⟩ | ⟨hopen, hmain, hfailed⟩
    · exact spoiled_of_left hleft
    · rw [hmain]
      exact spoiled_of_failed ha hd hopen hfailed

theorem failed_move [DecidableEq ι] (h : RunMove env c i hd r l r') (hr : r'.waiter.Failed) :
    r.waiter.Failed ∨ l.fails i = true := by
  cases h with
  | main h =>
    refine .inl ?_
    rcases h.waiter with hw | ⟨-, -, hw⟩ | hw <;> rw [hw] at hr
    · exact hr
    · rcases hr with hpc | hmsg
      · cases hpc
      · exact .inr hmsg
    · rcases hr with hpc | ⟨e, hmsg⟩
      · exact .inl hpc
      · cases hmsg
  | monitor h =>
    have hwaiter := h.waiter_eq
    rw [hwaiter] at hr
    exact .inl hr
  | wait h => exact (h.of_failed hr).imp id fun ha => by simp [Label.fails, ha]
  | drain | proc | cancelKill | other => exact .inl hr

/-- An error of `wait` reaches the run thread through the channel. -/
theorem MainMove.join {a : MainAct} (h : MainMove env c i hd r a hd' r') {e : AerError}
    (hr : r'.main = .joinWait (.error e)) : r.waiter.Failed := by
  obtain rfl : a = .recvWait := by
    have hedge := hr ▸ h.edge
    generalize r.main = m at hedge
    cases hedge
    rfl
  cases h with
  | recvWait _ msg => cases hr; exact .inr ⟨e, msg⟩
  | recvWaitLost => cases hr

/-- The ways out of the body of `run_impl`. -/
theorem MainMove.left {a : MainAct} (h : MainMove env c i hd r a hd' r')
    (hr : r'.main.left = true) :
    r.main.left = true ∨ r.main.beforeWire = true ∨ a.fails = true ∨ r.waiter.Failed ∨
      (∃ e, r.main = .joinWait (.error e)) ∨ r.main.judging = true := by
  cases h with
  | spawnFailed pc | startedRefused pc | startedPanics pc => exact .inr (.inl (by rw [pc]; rfl))
  | startMonitorFails | startWaitFails | chunkPanics => exact .inr (.inr (.inl rfl))
  | recvWaitLost _ _ panicked | waitPanicked _ panicked =>
    exact .inr (.inr (.inr (.inl (.inl (by rw [panicked]; rfl)))))
  | @joinWait res pc =>
    cases res with
    | ok code =>
      simp only [Run.afterWait] at hr
      split at hr <;> cases hr
    | error e => exact .inr (.inr (.inr (.inr (.inl ⟨e, pc⟩))))
  | @waitReturned res pc returned =>
    cases res with
    | ok code =>
      simp only [Run.afterWait] at hr
      split at hr <;> cases hr
    | error e => exact .inr (.inr (.inr (.inl (.inl (by rw [returned]; rfl)))))
  | exitedRefused pc | exitedReturns pc | exitedPanics pc =>
    exact .inr (.inr (.inr (.inr (.inr (by rw [pc]; rfl)))))
  | dropLocals pc | guardMore pc | guardDone pc | guardReap pc => exact .inl (by rw [pc]; rfl)
  | startedReturns | loadCancelled | loadFired =>
    simp only at hr
    split at hr <;> cases hr
  | startMonitor | noMonitor =>
    simp only [RunConfig.afterMonitor] at hr
    split at hr <;> cases hr
  | _ => cases hr

theorem MainEdge.of_clear {m m' : MainPc} (h : MainEdge env c m .clear m') :
    ∃ code, m = .clear code ∧ m' = .stopMonitor code := by
  cases h
  exact ⟨_, rfl, rfl⟩

/-- The run thread does not go back to before the first store. -/
theorem MainEdge.beforeWire {m m' : MainPc} {a : MainAct} (h : MainEdge env c m a m')
    (hm : m'.beforeWire = true) : m.beforeWire = true ∧ a ≠ .wire := by
  cases h with
  | wire => cases hm
  | _ => first | exact ⟨rfl, by simp⟩ | cases hm

end Moves

/-! ### Whole runs -/

section Runs

variable [DecidableEq ι] {env : Env} {cfg : ι → RunConfig} {tr : List (Label ι)} {w : World ι}
  {i : ι}

/-- After the first store the run thread is past it. -/
theorem beforeWire_of_wire (h : Reaches env cfg tr w) (hwire : .main i .wire ∈ tr) :
    (w.runs i).main.beforeWire = false := by
  refine Lts.exec_invariant (P := fun tr w => .main i .wire ∈ tr →
    (w.runs i).main.beforeWire = false) ?_ ?_ h hwire
  · intro h
    cases h
  · intro tr w l w' _ ih hstep hwire
    rw [List.mem_append, List.mem_singleton] at hwire
    by_contra hb
    rw [Bool.not_eq_false] at hb
    have hfalse : (w.runs i).main.beforeWire = true → l ≠ .main i .wire → False := fun hb' hl => by
      rw [ih (hwire.resolve_right hl.symm)] at hb'
      cases hb'
    rcases mainMove_or_stays hstep i with ⟨a, rfl, h⟩ | ⟨hne, hm⟩
    · obtain ⟨hb', ha⟩ := h.edge.beforeWire hb
      exact hfalse hb' (by simpa using ha)
    · exact hfalse (hm ▸ hb) (hne _)

/-- With a handle, `wait` is called after the first store. -/
theorem wire_of_waiting (h : Reaches env cfg tr w) (hc : (cfg i).cancel = true)
    (hwait : (w.runs i).waiter.pc ≠ .idle) : .main i .wire ∈ tr := by
  refine Lts.exec_invariant (P := fun tr w => (w.runs i).waiter.pc ≠ .idle →
    .main i .wire ∈ tr) ?_ ?_ h hwait
  · exact fun h => absurd rfl h
  · intro tr w l w' hw ih hstep hwait
    refine List.mem_append_left _ ?_
    have hmove := runMove_of_step hstep i
    have hwired := (progress_of_reaches hw i).wired hc
    generalize w.runs i = r, w'.runs i = r' at hmove hwait ih hwired
    cases hmove with
    | main h =>
      cases h with
      | startWait pc | callWait pc => exact hwired (by rw [pc]; rfl)
      | @joinWait res | @waitReturned res => cases res <;> exact ih hwait
      | _ => exact ih hwait
    | monitor h => exact ih (by cases h <;> exact hwait)
    | wait h => exact ih h.pc_ne_idle
    | drain | proc | cancelKill | other => exact ih hwait

/-- The slot is cleared after `wait` has answered. -/
theorem answered_of_clear (h : Reaches env cfg tr w) (hclear : .main i .clear ∈ tr) :
    (w.runs i).waiter.pc.answered = true := by
  refine Lts.exec_invariant (P := fun tr w => .main i .clear ∈ tr →
    (w.runs i).waiter.pc.answered = true) ?_ ?_ h hclear
  · intro h
    cases h
  · intro tr w l w' hw ih hstep hclear
    rw [List.mem_append, List.mem_singleton] at hclear
    have hmove := runMove_of_step hstep i
    have ha := answered_of_reaches hw i
    have hafter := (progress_of_reaches hw i).cleared
    generalize w.runs i = r, w'.runs i = r' at hmove ha ih hafter
    cases hmove with
    | main h =>
      cases h with
      | clear pc => exact (ha.main _ (by rw [pc]; rfl)).1
      | startWait pc | callWait pc =>
        have := hafter (hclear.resolve_right (by simp))
        rw [pc] at this
        cases this
      | @joinWait res | @waitReturned res =>
        cases res <;> exact ih (hclear.resolve_right (by simp))
      | _ => exact ih (hclear.resolve_right (by simp))
    | monitor h =>
      have := ih (hclear.resolve_right (by simp))
      cases h <;> exact this
    | wait h => exact (h.of_answered (ih (hclear.resolve_right (by simp)))).1
    | drain | proc | cancelKill => exact ih (hclear.resolve_right (by simp))
    | other hl =>
      exact ih (hclear.resolve_right fun h => by subst h; simp [Label.touches] at hl)

/-- Nothing runs in the group any more when the slot is cleared. -/
theorem quiet_of_clear (h : Reaches env cfg tr w) (hclear : .main i .clear ∈ tr) :
    Quiet env (w.runs i).tree := by
  refine Lts.exec_invariant (P := fun tr w => .main i .clear ∈ tr →
    Quiet env (w.runs i).tree) ?_ ?_ h hclear
  · intro h
    cases h
  · intro tr w l w' hw ih hstep hclear
    rw [List.mem_append, List.mem_singleton] at hclear
    have hmove := runMove_of_step hstep i
    have htree := hmove.tree
    have ha := answered_of_reaches hw i
    -- `spawn` is over when the slot is cleared
    have hspawn : ∀ b, l ≠ .main i (.spawn b) := by
      rintro b rfl
      have hafter := (progress_of_reaches hw i).cleared (hclear.resolve_right (by simp))
      rcases mainMove_or_stays hstep i with ⟨a, ha, h⟩ | ⟨hne, -⟩
      · cases ha
        obtain ⟨s, hs⟩ := h.edge.spawning
        rw [hs] at hafter
        cases hafter
      · exact hne _ rfl
    have hq : Quiet env (w.runs i).tree := by
      rcases hclear with hclear | rfl
      · exact ih hclear
      · rcases mainMove_or_stays hstep i with ⟨a, ha', h⟩ | ⟨hne, -⟩
        · cases ha'
          obtain ⟨code, pc, -⟩ := h.edge.of_clear
          exact (ha.main (.ok code) (by rw [pc]; rfl)).2.2.1
        · exact absurd rfl (hne _)
    exact fun hp => (htree hspawn).live.groupLive (hq hp)

/-- The failures of a run lie between its two stores to the slot. -/
theorem between_of_fails (h : Reaches env cfg tr w) {l : Label ι} {w' : World ι}
    (hstep : step env cfg w l = some w') (hl : l.fails i = true) :
    .main i .clear ∉ tr ∧ ((cfg i).cancel = true → .main i .wire ∈ tr) := by
  rcases (runMove_of_step hstep i).fails hl with ⟨hwired, hafter, -⟩ | ⟨hopen, -, -⟩
  · refine ⟨fun hclear => ?_, fun hc => (progress_of_reaches h i).wired hc hwired⟩
    rw [(progress_of_reaches h i).cleared hclear] at hafter
    cases hafter
  · refine ⟨fun hclear => ?_, fun hc => wire_of_waiting h hc fun hidle => ?_⟩
    · rw [WaitPc.closed_of_answered (answered_of_clear h hclear)] at hopen
      cases hopen
    · rw [hidle] at hopen
      cases hopen

/-- **The failures among the labels and their traces in the run.** -/
theorem faults_of_reaches (h : Reaches env cfg tr w) (i : ι) :
    Faults (cfg i) i tr (w.runs i) := by
  refine Lts.exec_invariant (P := fun tr w => Faults (cfg i) i tr (w.runs i)) ?_ ?_ h
  · refine ⟨fun h => ?_, fun h => ?_, fun e h => ?_, fun h => ?_, fun _ h => ?_⟩
    · cases h
    · rcases h with h | ⟨e, h⟩ <;> cases h
    · cases h
    · cases h
    · cases h
  · intro tr w l w' hw hf hstep
    have hmove := runMove_of_step hstep i
    have hold : tr.any (Label.fails i) = true → (tr ++ [l]).any (Label.fails i) = true :=
      fun h => by simp only [List.any_append, h, Bool.true_or]
    have hnew : l.fails i = true → (tr ++ [l]).any (Label.fails i) = true := fun h => by simp [h]
    have hcases : (tr ++ [l]).any (Label.fails i) = true →
        tr.any (Label.fails i) = true ∨ l.fails i = true := fun h => by simpa using h
    refine ⟨fun hany => ?_, fun hfailed => ?_, fun e hjoin => ?_, fun hany => ?_,
      fun hc hleft hwire hclear => ?_⟩
    · exact spoiled_move hmove (answered_of_reaches hw i) (waitDone_of_reaches hw i)
        (sent_of_reaches hw i) ((hcases hany).imp hf.spoiled id)
    · exact (failed_move hmove hfailed).elim (hold ∘ hf.failed) hnew
    · refine hold ?_
      have hfailed := hf.failed
      have hjoined := hf.join e
      generalize w.runs i = r, w'.runs i = r' at hmove hjoin hfailed hjoined
      cases hmove with
      | main h => exact hfailed (h.join hjoin)
      | monitor h => exact hjoined (h.main_eq ▸ hjoin)
      | wait | drain | proc | cancelKill | other => exact hjoined hjoin
    · obtain ⟨hclear, hwire⟩ : .main i .clear ∉ tr ∧
          ((cfg i).cancel = true → .main i .wire ∈ tr) :=
        (hcases hany).elim hf.between (between_of_fails hw hstep)
      refine ⟨?_, fun hc => List.mem_append_left _ (hwire hc)⟩
      rw [List.mem_append, List.mem_singleton, not_or]
      refine ⟨hclear, ?_⟩
      -- a run that has met a failure does not come to the second store
      rintro rfl
      rcases hcases hany with hold | hl
      · have hspoiled := hf.spoiled hold
        cases handleMove_of_step hstep with
        | main h => cases h with
          | clear pc => rw [pc] at hspoiled; exact hspoiled
        | inner hl => cases hl
      · simp [Label.fails, MainAct.fails] at hl
    · rw [List.mem_append, List.mem_singleton, not_or] at hclear
      have hwire' : l ≠ .main i .wire → .main i .wire ∈ tr := fun hl =>
        (List.mem_append.mp hwire).resolve_right (by simpa using hl.symm)
      have hstay : (w.runs i).main.left = true → l ≠ .main i .wire →
          (tr ++ [l]).any (Label.fails i) = true := fun hm hl =>
        hold (hf.left hc hm (hwire' hl) hclear.1)
      have hpast := beforeWire_of_wire (i := i) hw
      have hjudged := (progress_of_reaches hw i).judging hc
      have hfailed := hf.failed
      have hjoined := hf.join
      generalize w.runs i = r, w'.runs i = r' at hmove hleft hstay hpast hjudged hfailed hjoined
      cases hmove with
      | @main a _ _ h =>
        have ha : a ≠ .wire := by
          rintro rfl
          cases h
          cases hleft
        have hl : Label.main i a ≠ .main i .wire := by simpa using ha
        rcases h.left hleft with hm | hm | hm | hm | ⟨e, hm⟩ | hm
        · exact hstay hm hl
        · rw [hpast (hwire' hl)] at hm
          cases hm
        · exact hnew (by simp [Label.fails, hm])
        · exact hold (hfailed hm)
        · exact hold (hjoined e hm)
        · exact absurd (hjudged hm) hclear.1
      | monitor h => exact hstay (h.main_eq ▸ hleft) (by simp)
      | wait | drain | proc | cancelKill => exact hstay hleft (by simp)
      | other ht => exact hstay hleft fun hl => by subst hl; simp [Label.touches] at ht

/-- Whoever probes or kills a tree on behalf of `cancel()` is its run thread in the wiring
block, or has found the run in the slot. -/
theorem onHandle_or_slot (h : Reaches env cfg tr w) {l : Label ι} {w' : World ι}
    (hstep : step env cfg w l = some w') {j : ι}
    (hl : l.cancelProbes j = true ∨ l.cancelKills j = true) :
    (w.runs j).main.onHandle = true ∨ w.handle.kill = some j := by
  have hslot := (guarded_of_reaches h).slot
  cases handleMove_of_step hstep with
  | @main i a _ _ h =>
    cases h with
    | probeMore pc | probeAlive pc | probeDead pc | killMore pc | killDone pc =>
      obtain rfl : i = j := by simpa [Label.cancelProbes, Label.cancelKills] using hl
      exact .inl (by rw [pc]; rfl)
    | _ => rcases hl with hl | hl <;> cases hl
  | @cancel k a _ h =>
    cases h with
    | @probeMore i _ _ _ pc | @probeAlive i _ _ pc | @probeDead i _ _ pc | @killMore i _ _ _ _ pc
    | @killDone i _ _ _ _ pc =>
      obtain rfl : i = j := by simpa [Label.cancelProbes, Label.cancelKills] using hl
      exact .inr (hslot k i (by rw [pc]; rfl))
    | _ => rcases hl with hl | hl <;> cases hl
  | inner hin =>
    cases l with
    | main | cancel => cases hin
    | _ => rcases hl with hl | hl <;> cases hl

/-- On a handle of its own, a run that has left with the slot empty is out of reach. -/
theorem out_of_reach (h : Reaches env cfg tr w) (hs : SoleRun cfg i) {o : Outcome}
    (hfin : (w.runs i).main = .finished o) (hslot : w.handle.kill = none)
    {tr₂ : List (Label ι)} {w₂ : World ι} (hrun : Lts.exec (step env cfg) w tr₂ = some w₂)
    {l : Label ι} (hl : l ∈ tr₂) (j : ι) :
    l.cancelProbes j = false ∧ l.cancelKills j = false := by
  obtain ⟨before, after, w₁, w₃, rfl, hbefore, hstep, -⟩ := Lts.exec_of_mem hrun hl
  have hreach : Reaches env cfg (tr ++ before) w₁ := Lts.exec_append_eq_some.mpr ⟨w, h, hbefore⟩
  have hleft : Left w i o w₁ := .run h hfin hbefore
  have hnot : ¬(l.cancelProbes j = true ∨ l.cancelKills j = true) := fun hl => by
    rcases onHandle_or_slot hreach hstep hl with hon | hk
    · obtain rfl := hs.eq (cancel_of_onHandle hreach hon)
      rw [hleft.main] at hon
      cases hon
    · obtain rfl := hs.eq (cancel_of_slot hreach hk)
      rw [hleft.slot hk] at hslot
      cases hslot
  simpa using hnot

/-- **When the slot does not outlive the run.**  On a handle of its own, the slot is empty
when the run thread has left, and nobody will probe or kill on behalf of `cancel()` any
more, exactly if every thread of the run could be started, the callback did not panic at a
chunk and `child.wait()` did not fail. -/
theorem slot_is_cleared_iff_nothing_failed (h : Reaches env cfg tr w) (hs : SoleRun cfg i)
    (hc : (cfg i).cancel = true) {o : Outcome} (hfin : (w.runs i).main = .finished o) :
    (w.handle.kill = none ∧ ∀ tr₂ w₂, Lts.exec (step env cfg) w tr₂ = some w₂ →
        ∀ l ∈ tr₂, ∀ j, l.cancelProbes j = false ∧ l.cancelKills j = false) ↔
      ∀ l ∈ tr, l.fails i = false := by
  have hfaults := faults_of_reaches h i
  have hany : (∀ l ∈ tr, l.fails i = false) ↔ tr.any (Label.fails i) ≠ true := by
    simp [List.any_eq_true]
  rw [hany]
  constructor
  · rintro ⟨hnone, -⟩ hfails
    obtain ⟨hclear, hwire⟩ := hfaults.between hfails
    rw [(slot_iff_wired h hs).mpr ⟨hwire hc, hclear⟩] at hnone
    cases hnone
  · intro hnothing
    have hnone : w.handle.kill = none := by
      cases hk : w.handle.kill with
      | none => rfl
      | some j =>
        obtain rfl := hs.eq (cancel_of_slot h hk)
        obtain ⟨hwire, hclear⟩ := wired_of_slot h hk
        exact absurd (hfaults.left hc (by rw [hfin]; rfl) hwire hclear) hnothing
    exact ⟨hnone, fun tr₂ w₂ hrun l hl j => out_of_reach h hs hfin hnone hrun hl j⟩

end Runs

/-- Nothing fails in a run that is cancelled, and the slot is empty at its end. -/
theorem cancelledRun_clears_slot :
    ∃ w, Reaches Env.posix (fun _ => ⟨none, false, true⟩) cancelledRun w ∧
      (w.runs ()).main = .finished (.ret (.error .cancelled)) ∧ w.handle.kill = none := by
  obtain ⟨w, hw, hfin⟩ : ∃ w, Reaches Env.posix (fun _ => ⟨none, false, true⟩) cancelledRun w ∧
      (w.runs ()).main = .finished (.ret (.error .cancelled)) :=
    Lts.exists_exec_of_any (by decide +kernel)
  have hiff := slot_is_cleared_iff_nothing_failed hw (i := ()) (fun j hj => absurd rfl hj) rfl hfin
  exact ⟨w, hw, hfin, (hiff.mpr (by decide)).1⟩

/-- After a panic at a chunk the slot still holds the kill handle, and the first call of
`cancel()` then probes a tree that has been killed and reaped. -/
theorem abandonedWait_leaves_slot_behind :
    ∃ w, Reaches Env.posix (fun _ => ⟨none, true, true⟩) abandonedWait w ∧
      (w.runs ()).main = .finished .unwound ∧ w.handle.kill = some () ∧
      ∃ w₂, Lts.exec (step Env.posix (fun _ => ⟨none, true, true⟩)) w
          [.cancel (.thread 0) (.swap false), .cancel (.thread 0) .lock,
            .cancel (.thread 0) (.probe () .absent)] = some w₂ ∧
        Label.cancelProbes () (.cancel (.thread 0) (.probe () .absent)) = true := by
  simp only [Label.cancelProbes, decide_true, and_true, ← Option.isSome_iff_exists]
  exact Lts.exists_exec_of_any (by decide +kernel)

end AerCore
