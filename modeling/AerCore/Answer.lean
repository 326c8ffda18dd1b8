import AerCore.Moves

/-!
# The answers of `wait`

The run thread learns how the root ended from `wait` alone: as a return value,
or through the one-message channel of the wait thread.  Wherever such an answer
is held it is a true one.  A code means that the root has been reaped with that
status, that nothing runs in its group any more and that both drain threads have
ended; an error is a failed wait.

## Main definitions

* `Unstarted` — while `spawn` runs, nothing else of the run exists.
* `WaitAnswer` — what an answer of `wait` means.
* `Answered` — the invariant: every answer in the run is a true one.

## Main results

* `RunMove.settles` — what `wait` establishes is never undone.
* `answered_of_reaches` — the invariant holds in every reachable world.
-/

namespace AerCore

variable {ι : Type*}

/-! ### Before the spawn -/

/-- While `spawn` runs, nothing else of the run exists but its tree. -/
def Unstarted (env : Env) (r : Run) : Prop :=
  ∀ s, r.main = .spawn s → r = { Run.init env with main := .spawn s, tree := r.tree }

/-! ### Answers -/

/-- Nothing runs in the group, unless the kill may have been refused. -/
def Quiet (env : Env) (t : Tree) : Prop := env.permitted = true → t.groupLive = false

/-- A code is that of the reaped root, -1 if it has none, and `wait` has finished its
work; an error is a failed wait. -/
def WaitAnswer (env : Env) (t : Tree) (o : Output) : Except AerError ℤ → Prop
  | .ok code => (∃ status, t.root = .reaped status ∧ code = status.getD (-1)) ∧ Quiet env t ∧
      o.stdout.pc = .done ∧ o.stderr.pc = .done
  | .error e => ∃ e', e = .waitFailed e'

/-- What a call of `wait` has done so far. -/
def WaitPc.Answered (env : Env) (t : Tree) (o : Output) : WaitPc → Prop
  | .idle | .startOut => o.stdout.pc = .idle ∧ o.stderr.pc = .idle
  | .startErr => o.stderr.pc = .idle
  | .killTree (.ok status) => t.root = .reaped status
  | .joinOut (.ok status) => t.root = .reaped status ∧ Quiet env t
  | .joinErr (.ok status) => t.root = .reaped status ∧ Quiet env t ∧ o.stdout.pc = .done
  | .returned res => WaitAnswer env t o res
  | _ => True

/-- `wait` has given its answer. -/
def WaitPc.answered : WaitPc → Bool
  | .returned _ | .sent | .ended => true
  | _ => false

/-- The run thread has not called `wait` yet. -/
def MainPc.beforeWait : MainPc → Bool
  | .spawn _ | .toRunning _ | .inStarted | .wire | .loadCancelled | .loadFired | .probe _ | .fire
  | .kill _ | .startMonitor | .openChannel | .dropTx | .startWait | .callWait => true
  | _ => false

/-- The answer of `wait` the run thread carries. -/
def MainPc.answer? : MainPc → Option (Except AerError ℤ)
  | .joinWait res => some res
  | .clear code | .stopMonitor code | .loadTimedOut code | .loadKillFired code _
  | .toExited code _ _ => some (.ok code)
  | _ => none

/-- Every answer of `wait` in the run is a true one. -/
structure Answered (env : Env) (r : Run) : Prop where
  /-- Nothing of `wait` exists before it is called. -/
  before : r.main.beforeWait = true → r.waiter = ⟨.idle, none⟩
  /-- In the call itself. -/
  wait : r.waiter.pc.Answered env r.tree r.output
  /-- In the channel of the wait thread. -/
  msg : ∀ res, r.waiter.msg = some res →
    r.waiter.pc.answered = true ∧ WaitAnswer env r.tree r.output res
  /-- On the run thread. -/
  main : ∀ res, r.main.answer? = some res →
    r.waiter.pc.answered = true ∧ WaitAnswer env r.tree r.output res

/-! ### What is never undone -/

/-- What `wait` establishes in `r` still holds in `r'`. -/
structure Settles (r r' : Run) : Prop where
  /-- A reaped root stays reaped. -/
  reaped : ∀ status, r.tree.root = .reaped status → r'.tree.root = .reaped status
  /-- A group in which nothing runs stays so. -/
  quiet : r.tree.groupLive = false → r'.tree.groupLive = false
  /-- A drain thread that has ended does not start again. -/
  done : ∀ s, (r.output.drain s).pc = .done → (r'.output.drain s).pc = .done

section Moves

variable {env : Env} {c : RunConfig} {i : ι} {hd hd' : CancelHandle ι} {r r' : Run}
  {l : Label ι}

theorem MonitorMove.monitor_ne_idle {a : MonitorAct} (h : MonitorMove env r a r') :
    r.monitor ≠ .idle := by
  intro hi
  cases h <;> simp_all

theorem WaitMove.pc_ne_idle {capture : Bool} {t t' : Tree} {o o' : Output} {w w' : Waiter}
    {a : WaitAct} (h : WaitMove env capture t o w a t' o' w') : w.pc ≠ .idle := by
  intro hi
  cases h <;> simp_all

theorem DrainMove.pc_ne_idle {capture : Bool} {s : Stream} {t t' : Tree} {o o' : Output}
    {a : DrainAct} (h : DrainMove capture s t o a t' o') : (o.drain s).pc ≠ .idle := by
  intro hi
  cases h <;> simp_all

/-- A thread of its own leaves the run thread where it is. -/
theorem MonitorMove.main_eq {a : MonitorAct} (h : MonitorMove env r a r') : r'.main = r.main := by
  cases h <;> rfl

theorem MonitorMove.waiter_eq {a : MonitorAct} (h : MonitorMove env r a r') :
    r'.waiter = r.waiter := by
  cases h <;> rfl

theorem MonitorMove.output_eq {a : MonitorAct} (h : MonitorMove env r a r') :
    r'.output = r.output := by
  cases h <;> rfl

@[simp] theorem Output.drain_setDrain_self (o : Output) (s : Stream) (d : Drain) :
    (o.setDrain s d).drain s = d := by
  cases s <;> rfl

theorem Output.drain_setDrain_ne (o : Output) {s s' : Stream} (d : Drain) (h : s' ≠ s) :
    (o.setDrain s d).drain s' = o.drain s' := by
  cases s <;> cases s' <;> first | rfl | exact absurd rfl h

@[simp] theorem Output.drain_with_chunks (o : Output) (ch : ChunkChan) (s : Stream) :
    ({ o with chunks := ch } : Output).drain s = o.drain s := by
  cases s <;> rfl

/-- A drain thread leaves the other one alone, and ends for good. -/
theorem DrainMove.drain_ne {capture : Bool} {s s' : Stream} {t t' : Tree} {o o' : Output}
    {a : DrainAct} (h : DrainMove capture s t o a t' o') (hne : s' ≠ s) :
    o'.drain s' = o.drain s' := by
  cases h with
  | readBytes => exact Output.drain_setDrain_ne _ _ hne
  | readEof | readError => exact Output.drain_setDrain_ne _ _ hne
  | readInterrupted =>
    split
    · exact Output.drain_setDrain_ne _ _ hne
    · rfl
  | send => exact Output.drain_setDrain_ne _ _ hne

theorem DrainMove.pc_ne_done {capture : Bool} {s : Stream} {t t' : Tree} {o o' : Output}
    {a : DrainAct} (h : DrainMove capture s t o a t' o') : (o.drain s).pc ≠ .done := by
  intro hi
  cases h <;> simp_all

theorem DrainMove.drain_done {capture : Bool} {s s' : Stream} {t t' : Tree} {o o' : Output}
    {a : DrainAct} (h : DrainMove capture s t o a t' o') (hd : (o.drain s').pc = .done) :
    o'.drain s' = o.drain s' := by
  refine h.drain_ne ?_
  rintro rfl
  exact h.pc_ne_done hd

/-- The run thread leaves the drain threads alone. -/
theorem MainMove.drain_eq {a : MainAct} (h : MainMove env c i hd r a hd' r') (s : Stream) :
    r'.output.drain s = r.output.drain s := by
  cases h with
  | openChannel | dropTx | startWaitFails | recv | dropLocals =>
    exact Output.drain_with_chunks _ _ s
  | @joinWait res | @waitReturned res => cases res <;> rfl
  | _ => rfl

/-- What `wait` establishes is never undone, except that it starts its drain threads. -/
theorem RunMove.settles [DecidableEq ι] (h : RunMove env c i hd r l r')
    (spawned : ∀ a, l ≠ .main i (.spawn a))
    (started : ∀ ok, l ≠ .wait i (.startOut ok) ∧ l ≠ .wait i (.startErr ok)) : Settles r r' where
  reaped := fun status hr => (h.tree spawned).reaped hr
  quiet := fun hq => (h.tree spawned).live.groupLive hq
  done := by
    intro s hs
    cases h with
    | main h => rw [h.drain_eq]; exact hs
    | monitor h => cases h <;> exact hs
    | wait h =>
      cases h with
      | startOut => exact absurd rfl (started true).1
      | startErr => exact absurd rfl (started true).2
      | startOutFails | startErrFails => cases s <;> exact hs
      | _ => exact hs
    | drain h => exact (congrArg Drain.pc (h.drain_done hs)).trans hs
    | proc | cancelKill | other => exact hs

theorem WaitAnswer.settles {res : Except AerError ℤ} (hs : Settles r r')
    (h : WaitAnswer env r.tree r.output res) : WaitAnswer env r'.tree r'.output res := by
  cases res with
  | ok code =>
    obtain ⟨⟨status, hr, hc⟩, hq, ho, he⟩ := h
    exact ⟨⟨status, hs.reaped status hr, hc⟩, fun hp => hs.quiet (hq hp), hs.done .stdout ho,
      hs.done .stderr he⟩
  | error e => exact h

/-! ### Each move keeps the answers true -/

theorem unstarted_move [DecidableEq ι] (h : RunMove env c i hd r l r') (hu : Unstarted env r) :
    Unstarted env r' := by
  intro s hs
  cases h with
  | main h =>
    obtain ⟨-, b, rfl⟩ := (hs ▸ h.edge).of_spawn
    cases h with
    | spawnMore pc => cases hs; rw [hu _ pc]
    | spawnOk | spawnFailed => cases hs
  | monitor h =>
    have hne := h.monitor_ne_idle
    rw [hu s (h.main_eq ▸ hs)] at hne
    exact absurd rfl hne
  | wait h =>
    have hne := h.pc_ne_idle
    rw [hu s hs] at hne
    exact absurd rfl hne
  | @drain st _ _ _ h =>
    have hne := h.pc_ne_idle
    rw [hu s hs] at hne
    cases st <;> exact absurd rfl hne
  | proc h | cancelKill h =>
    have := hu s hs
    rw [this]
  | other => exact hu s hs

/-- Nothing runs in the group after the closing kill, unless it was refused. -/
theorem killTree_quiet {t t' : Tree} {x : Reply} (h : killTree env t x = some t') :
    Quiet env t' := by
  intro hp
  unfold killTree at h
  split at h <;> rw [Option.ite_none_right_eq_some] at h <;> obtain ⟨hx, h⟩ := h <;> cases h
  · cases x with
    | present => exact Tree.killGroup_groupLive t none
    | absent =>
      have he : t.groupExists = false := by simpa [Tree.groupReply, Reply.fits] using hx
      exact (Tree.groupExists_eq_false_iff.mp he).1
    | error e => simp [Tree.groupReply, Reply.fits, hp] at hx
  · cases x with
    | present => exact Tree.killGroup_groupLive t terminatedStatus
    | absent => simp [Reply.fits] at hx
    | error e => simp [Reply.fits, hp] at hx

theorem waitAnswer_waitResult {t : Tree} {o : Output} {res : Except IoError (Option ℤ)}
    (h : ∀ status, res = .ok status → t.root = .reaped status ∧ Quiet env t ∧
      o.stdout.pc = .done ∧ o.stderr.pc = .done) : WaitAnswer env t o (waitResult res) := by
  cases res with
  | ok status =>
    obtain ⟨hr, hq, ho⟩ := h status rfl
    exact ⟨⟨status, hr, rfl⟩, hq, ho⟩
  | error e => exact ⟨e, rfl⟩

/-- A call of `wait` that is waiting or ended keeps what it has learned. -/
theorem WaitPc.Answered.settles {p : WaitPc} (hs : Settles r r')
    (hidle : ∀ s, (r.output.drain s).pc = .idle → (r'.output.drain s).pc = .idle)
    (h : p.Answered env r.tree r.output) : p.Answered env r'.tree r'.output := by
  have hq : Quiet env r.tree → Quiet env r'.tree := fun hq hp => hs.quiet (hq hp)
  cases p with
  | idle | startOut => exact ⟨hidle .stdout h.1, hidle .stderr h.2⟩
  | startErr => exact hidle .stderr h
  | killTree res =>
    cases res with
    | ok status => exact hs.reaped status h
    | error e => trivial
  | joinOut res =>
    cases res with
    | ok status => exact ⟨hs.reaped status h.1, hq h.2⟩
    | error e => trivial
  | joinErr res =>
    cases res with
    | ok status => exact ⟨hs.reaped status h.1, hq h.2.1, hs.done .stdout h.2.2⟩
    | error e => trivial
  | returned res => exact WaitAnswer.settles hs h
  | childWait | sent | ended | panicked => trivial

/-- `wait` keeps its own answer true. -/
theorem WaitMove.wait_answered {capture : Bool} {t t' : Tree} {o o' : Output} {w w' : Waiter}
    {a : WaitAct} (h : WaitMove env capture t o w a t' o' w') (hw : w.pc.Answered env t o) :
    w'.pc.Answered env t' o' := by
  cases h with
  | startOut pc => rw [pc] at hw; exact hw.2
  | startErr | startOutFails | startErrFails => trivial
  | childWait => cases env.platform <;> exact rfl
  | @childWaitFails e =>
    cases env.platform with
    | unix => trivial
    | windows => exact ⟨e, rfl⟩
  | @killTree res _ _ pc h =>
    rw [pc] at hw
    have htree : TreeMove env t t' := .forced (forcedMove_of_killTree h)
    cases res with
    | ok status => exact ⟨htree.reaped hw, killTree_quiet h⟩
    | error e => trivial
  | @joinOut res pc done =>
    rw [pc] at hw
    cases res with
    | ok status => exact ⟨hw.1, hw.2, done⟩
    | error e => trivial
  | @joinErr res pc done =>
    rw [pc] at hw
    refine waitAnswer_waitResult fun status hs => ?_
    subst hs
    exact ⟨hw.1, hw.2.1, hw.2.2, done⟩
  | send | exit => trivial

/-- Once `wait` has given its answer, its thread only passes it on. -/
theorem WaitMove.of_answered {capture : Bool} {t t' : Tree} {o o' : Output} {w w' : Waiter}
    {a : WaitAct} (h : WaitMove env capture t o w a t' o' w') (hw : w.pc.answered = true) :
    w'.pc.answered = true ∧ t' = t ∧ o' = o := by
  cases h with
  | send | exit => exact ⟨rfl, rfl, rfl⟩
  | startOut pc | startOutFails pc | startErr pc | startErrFails pc | childWait pc
  | childWaitFails pc | killTree pc | joinOut pc | joinErr pc => rw [pc] at hw; cases hw

theorem WaitMove.msg {capture : Bool} {t t' : Tree} {o o' : Output} {w w' : Waiter}
    {a : WaitAct} (h : WaitMove env capture t o w a t' o' w') {res : Except AerError ℤ}
    (hres : w'.msg = some res) : w.msg = some res ∨ w.pc = .returned res := by
  cases h with
  | send pc => cases hres; exact .inr pc
  | _ => exact .inl hres

/-- The run thread starts the call of `wait`, takes its message, or leaves it alone. -/
theorem MainMove.waiter {a : MainAct} (h : MainMove env c i hd r a hd' r') :
    r'.waiter = r.waiter ∨
      (r.main.beforeWait = true ∧ r'.main.beforeWait = false ∧
        r'.waiter = { r.waiter with pc := .startOut }) ∨
      r'.waiter = { r.waiter with msg := none } := by
  cases h with
  | startWait pc | callWait pc => exact .inr (.inl ⟨by rw [pc]; rfl, rfl, rfl⟩)
  | recvWait => exact .inr (.inr rfl)
  | @joinWait res | @waitReturned res => cases res <;> exact .inl rfl
  | _ => exact .inl rfl

/-- The call of `wait` stands where it stood, or is made, or makes a step of its own. -/
theorem RunMove.waiter_pc [DecidableEq ι] (h : RunMove env c i hd r l r') :
    r'.waiter.pc = r.waiter.pc ∨ r'.waiter.pc = .startOut ∨
      ∃ a t o, l = .wait i a ∧
        WaitMove env c.captureOutput r.tree r.output r.waiter a t o r'.waiter := by
  cases h with
  | main h =>
    rcases h.waiter with hw | ⟨-, -, hw⟩ | hw <;> rw [hw]
    · exact .inl rfl
    · exact .inr (.inl rfl)
    · exact .inl rfl
  | monitor h => exact .inl (congrArg Waiter.pc h.waiter_eq)
  | wait h => exact .inr (.inr ⟨_, _, _, rfl, h⟩)
  | drain | proc | cancelKill | other => exact .inl rfl

/-- The run thread does not go back to before the call of `wait`. -/
theorem MainEdge.beforeWait {m m' : MainPc} {a : MainAct} (h : MainEdge env c m a m')
    (hb : m'.beforeWait = true) : m.beforeWait = true := by
  cases h <;> first | rfl | cases hb

/-- An answer on the run thread is one it had, or comes from the call of `wait`. -/
theorem MainMove.answer {a : MainAct} (h : MainMove env c i hd r a hd' r')
    {res : Except AerError ℤ} (hres : r'.main.answer? = some res) :
    r'.waiter.pc = r.waiter.pc ∧
      (r.main.answer? = some res ∨ r.waiter.msg = some res ∨ r.waiter.pc = .returned res) := by
  cases h with
  | recvWait _ msg => cases hres; exact ⟨rfl, .inr (.inl msg)⟩
  | @joinWait res' pc =>
    rw [pc]
    cases res' with
    | ok code =>
      simp only [Run.afterWait] at hres
      split at hres <;> cases hres <;> exact ⟨rfl, .inl rfl⟩
    | error e => cases hres
  | @waitReturned res' _ returned =>
    cases res' with
    | ok code =>
      simp only [Run.afterWait] at hres
      split at hres <;> cases hres <;> exact ⟨rfl, .inr (.inr returned)⟩
    | error e => cases hres
  | clear pc | stopMonitor pc | loadTimedOut pc | loadKillFired pc =>
    rw [pc]
    exact ⟨rfl, .inl hres⟩
  | startedReturns | loadCancelled | loadFired | dropLocals =>
    simp only at hres
    split at hres <;> cases hres
  | startMonitor | noMonitor =>
    simp only [RunConfig.afterMonitor] at hres
    split at hres <;> cases hres
  | _ => cases hres

/-- Answers survive a move that leaves the run thread and the call of `wait` where
they are. -/
theorem Answered.frame (ha : Answered env r) (hs : Settles r r') (hmain : r'.main = r.main)
    (hwait : r'.waiter = r.waiter)
    (hidle : ∀ s, (r.output.drain s).pc = .idle → (r'.output.drain s).pc = .idle) :
    Answered env r' := by
  refine ⟨?_, ?_, ?_, ?_⟩ <;> rw [hwait]
  · rw [hmain]; exact ha.before
  · exact ha.wait.settles hs hidle
  · exact fun res hres => ⟨(ha.msg res hres).1, (ha.msg res hres).2.settles hs⟩
  · rw [hmain]; exact fun res hres => ⟨(ha.main res hres).1, (ha.main res hres).2.settles hs⟩

theorem answered_move [DecidableEq ι] (h : RunMove env c i hd r l r') (hu : Unstarted env r)
    (ha : Answered env r) : Answered env r' := by
  have settles := h.settles
  cases h with
  | @main a _ _ h =>
    by_cases hsp : ∃ s, a = .spawn s
    · -- during the spawn there is no answer yet
      obtain ⟨s, rfl⟩ := hsp
      cases h with
      | spawnMore pc | spawnOk pc | spawnFailed pc =>
        have hw : r.waiter = ⟨.idle, none⟩ := by rw [hu _ pc]; rfl
        have ho : r.output = .none := by rw [hu _ pc]; rfl
        refine ⟨fun _ => hw, ?_, ?_, fun res hres => by cases hres⟩
        all_goals
          simp only [hw, ho]
          first | exact ⟨rfl, rfl⟩ | exact fun res hres => by cases hres
    · have hs : Settles _ _ := settles (by simpa using hsp) (by simp)
      have hidle : ∀ s, (r.output.drain s).pc = .idle → (r'.output.drain s).pc = .idle :=
        fun s hi => by rw [h.drain_eq]; exact hi
      have hwait := ha.wait.settles hs hidle
      refine ⟨fun hb => ?_, ?_, ?_, fun res hres => ?_⟩
      · have hbefore := ha.before (h.edge.beforeWait hb)
        rcases h.waiter with hw | ⟨-, hnot, -⟩ | hw
        · exact hw.trans hbefore
        · rw [hb] at hnot
          cases hnot
        · rw [hw, hbefore]
      · rcases h.waiter with hw | ⟨hb, -, hw⟩ | hw <;> rw [hw]
        · exact hwait
        · rw [ha.before hb] at hwait
          exact hwait
        · exact hwait
      · rcases h.waiter with hw | ⟨hb, -, hw⟩ | hw <;> rw [hw]
        · exact fun res hres => ⟨(ha.msg res hres).1, (ha.msg res hres).2.settles hs⟩
        · rw [ha.before hb]
          exact fun res hres => by cases hres
        · exact fun res hres => by cases hres
      · obtain ⟨hpc, hm | hm | hm⟩ := h.answer hres <;> rw [hpc]
        · exact ⟨(ha.main res hm).1, (ha.main res hm).2.settles hs⟩
        · exact ⟨(ha.msg res hm).1, (ha.msg res hm).2.settles hs⟩
        · rw [hm] at hwait ⊢
          exact ⟨rfl, hwait⟩
  | monitor h =>
    refine ha.frame (settles (by simp) (by simp)) h.main_eq ?_ ?_ <;> cases h <;>
      first | rfl | exact fun _ hi => hi
  | wait h =>
    have hwait := h.wait_answered ha.wait
    have hnever : r.main.beforeWait = true → False := fun hb => h.pc_ne_idle (by rw [ha.before hb])
    have hkeep : ∀ res, r.waiter.pc.answered = true → WaitAnswer env r.tree r.output res →
        _ ∧ WaitAnswer env _ _ res := fun res hpc hres => by
      obtain ⟨hpc', ht, ho⟩ := h.of_answered hpc
      exact ⟨hpc', ht ▸ ho ▸ hres⟩
    refine ⟨fun hb => (hnever hb).elim, hwait, fun res hres => ?_, fun res hres => ?_⟩
    · rcases h.msg hres with hm | hm
      · exact hkeep res (ha.msg res hm).1 (ha.msg res hm).2
      · have hw := ha.wait
        rw [hm] at hw
        exact hkeep res (by rw [hm]; rfl) hw
    · exact hkeep res (ha.main res hres).1 (ha.main res hres).2
  | drain h =>
    refine ha.frame (settles (by simp) (by simp)) rfl rfl fun s hi => ?_
    rw [show _ from h.drain_ne ?_]
    · exact hi
    · rintro rfl
      exact h.pc_ne_idle hi
  | proc h | cancelKill h =>
    exact ha.frame (settles (by simp) (by simp)) rfl rfl fun _ hi => hi
  | other => exact ha

/-- A message is in the channel only after it is sent. -/
def Waiter.Sent (x : Waiter) : Prop := x.msg ≠ none → x.pc = .sent ∨ x.pc = .ended

theorem MainMove.sent {a : MainAct} (h : MainMove env c i hd r a hd' r') (ha : Answered env r)
    (hs : r.waiter.Sent) : r'.waiter.Sent := by
  rcases h.waiter with hw | ⟨hb, -, hw⟩ | hw <;> rw [hw]
  · exact hs
  · rw [ha.before hb]
    exact fun h => absurd rfl h
  · exact fun h => absurd rfl h

theorem sent_move [DecidableEq ι] (h : RunMove env c i hd r l r') (ha : Answered env r)
    (hs : r.waiter.Sent) : r'.waiter.Sent := by
  cases h with
  | main h => exact h.sent ha hs
  | monitor h =>
    have hwaiter := h.waiter_eq
    rw [hwaiter]
    exact hs
  | wait h =>
    intro hmsg
    cases h with
    | send => exact .inl rfl
    | exit => exact .inr rfl
    | _ pc =>
      rcases hs hmsg with hpc | hpc <;> rw [pc] at hpc <;> cases hpc
  | drain | proc | cancelKill | other => exact hs

end Moves

/-! ### Whole runs -/

variable [DecidableEq ι] {env : Env} {cfg : ι → RunConfig} {tr : List (Label ι)} {w : World ι}

theorem unstarted_of_reaches (h : Reaches env cfg tr w) (i : ι) : Unstarted env (w.runs i) := by
  refine Lts.exec_invariant (P := fun _ w => Unstarted env (w.runs i)) ?_ ?_ h
  · intro s hs
    cases hs
    rfl
  · intro _ w l w' _ hu hstep
    exact unstarted_move (runMove_of_step hstep i) hu

/-- **Every answer of `wait` in a reachable world is a true one.** -/
theorem answered_of_reaches (h : Reaches env cfg tr w) (i : ι) : Answered env (w.runs i) := by
  refine Lts.exec_invariant (P := fun _ w => Answered env (w.runs i)) ?_ ?_ h
  · exact ⟨fun _ => rfl, ⟨rfl, rfl⟩, fun res hres => (by cases hres),
      fun res hres => (by cases hres)⟩
  · intro _ w l w' hw ha hstep
    exact answered_move (runMove_of_step hstep i) (unstarted_of_reaches hw i) ha

theorem sent_of_reaches (h : Reaches env cfg tr w) (i : ι) : (w.runs i).waiter.Sent := by
  refine Lts.exec_invariant (P := fun _ w => (w.runs i).waiter.Sent) ?_ ?_ h
  · exact fun h => absurd rfl h
  · intro _ w l w' hw hs hstep
    exact sent_move (runMove_of_step hstep i) (answered_of_reaches hw i) hs

end AerCore
