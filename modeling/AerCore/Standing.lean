import AerCore.Capture
import AerCore.Handle

/-!
# Where the threads of a run stand to each other

Which thread can go on depends on where the others are: the run thread waits for the
senders of the drain threads, for the message of the wait thread or for its end; the wait
thread waits for the root and for the drain threads.  The invariants here say enough of that
to tell who is waiting for whom.

## Main definitions

* `WaitPc.Drained` — the drain threads, by the place of `wait`.
* `Standing` — the senders, the message of the wait thread, and who holds them.
* `Rooted` — on Unix, the root of a run that is under way leads its group, and only `wait`
  and the guard reap it.

## Main results

* `standing_of_reaches`, `rooted_of_reaches` — the invariants.
* `exists_holder_of_reaches` — a locked slot is held by a call of `cancel()`.
* `inCallback_of_reaches` — a callback does not return before the `cancel()` it has called.
-/

namespace AerCore

variable {ι : Type*}

/-! ### The drain threads and `wait` -/

/-- The drain threads, by the place of `wait`: it starts them one after the other and joins
them in the same order. -/
def WaitPc.Drained (o : Output) : WaitPc → Prop
  | .idle | .startOut => o.stdout.pc = .idle ∧ o.stderr.pc = .idle
  | .startErr => o.stdout.pc ≠ .idle ∧ o.stderr.pc = .idle
  | .childWait | .killTree _ | .joinOut _ => o.stdout.pc ≠ .idle ∧ o.stderr.pc ≠ .idle
  | .joinErr _ => o.stdout.pc = .done ∧ o.stderr.pc ≠ .idle
  | .returned _ | .sent | .ended => o.stdout.pc = .done ∧ o.stderr.pc = .done
  | .panicked => o.stderr.pc = .idle

/-- `wait` has not come to the end of `child.wait()`. -/
def WaitPc.beforeReap : WaitPc → Bool
  | .idle | .startOut | .startErr | .childWait => true
  | _ => false

/-- The run thread has let go of `chunk_tx` and may be waiting for the other senders. -/
def MainPc.pumps : MainPc → Bool
  | .startWait | .pump | .inChunk => true
  | _ => false

/-- The run thread has called `wait`, and has not taken its answer. -/
def MainPc.awaits : MainPc → Bool
  | .pump | .inChunk | .recvWait | .inWait => true
  | _ => false

/-- The run has been spawned and has not been left. -/
def MainPc.underway : MainPc → Bool
  | .spawn _ | .finished _ => false
  | _ => true

/-- How the threads of a run stand to each other. -/
structure Standing (c : RunConfig) (r : Run) : Prop where
  /-- A sender that is alive is in a drain thread, or on its way into one. -/
  senders : ∀ s, r.output.chunks.tx s = true →
    (r.output.drain s).pc ≠ .done ∧ ((r.output.drain s).pc = .idle → r.waiter.pc ≠ .panicked)
  /-- The run thread does not wait for its own sender. -/
  txRun : r.main.pumps = true → r.output.chunks.txRun = false
  /-- A run thread that waits for an answer has called `wait`. -/
  called : r.main.awaits = true → r.waiter.pc ≠ .idle
  /-- Only a wait thread sends, and its message stays until it is received. -/
  sent : r.waiter.pc = .sent ∨ r.waiter.pc = .ended →
    c.captureOutput = true ∧ (r.main.awaits = true → r.waiter.msg ≠ none)
  /-- A message that was received had been sent. -/
  received : ∀ res, r.main = .joinWait res → r.waiter.pc = .sent ∨ r.waiter.pc = .ended

section Moves

variable {env : Env} {c : RunConfig} {i : ι} {hd hd' : CancelHandle ι} {r r' : Run}
  {l : Label ι} {t t' : Tree}

/-- A drain thread that has moved has been started. -/
theorem DrainMove.pc_ne_idle_after {capture : Bool} {s : Stream} {t t' : Tree} {o o' : Output}
    {a : DrainAct} (h : DrainMove capture s t o a t' o') : (o'.drain s).pc ≠ .idle := by
  cases h with
  | readBytes => cases capture <;> simp
  | readEof | readError => simp
  | readInterrupted pc => cases capture <;> simp [pc]
  | send => cases s <;> simp [Output.setDrain, Output.drain]

theorem WaitPc.Drained.mono {p : WaitPc} {o o' : Output} (h : p.Drained o)
    (hidle : ∀ s, (o'.drain s).pc = .idle ↔ (o.drain s).pc = .idle)
    (hdone : ∀ s, (o.drain s).pc = .done → (o'.drain s).pc = .done) : p.Drained o' := by
  have hi := hidle .stdout
  have he := hidle .stderr
  have hdi := hdone .stdout
  have hde := hdone .stderr
  simp only [Output.drain] at hi he hdi hde
  cases p with
  | idle | startOut => exact ⟨hi.mpr h.1, he.mpr h.2⟩
  | startErr => exact ⟨fun hx => h.1 (hi.mp hx), he.mpr h.2⟩
  | childWait | killTree | joinOut => exact ⟨fun hx => h.1 (hi.mp hx), fun hx => h.2 (he.mp hx)⟩
  | joinErr => exact ⟨hdi h.1, fun hx => h.2 (he.mp hx)⟩
  | returned | sent | ended => exact ⟨hdi h.1, hde h.2⟩
  | panicked => exact he.mpr h

theorem WaitMove.drained {capture : Bool} {t t' : Tree} {o o' : Output} {x x' : Waiter}
    {a : WaitAct} (h : WaitMove env capture t o x a t' o' x')
    (ha : env.platform = .unix ∨ ∀ e, a ≠ .childWait (.error e))
    (hx : x.pc.Drained o) : x'.pc.Drained o' := by
  cases h with
  | startOut pc => rw [pc] at hx; exact ⟨by simp, hx.2⟩
  | startOutFails pc => rw [pc] at hx; exact hx.2
  | startErr pc => rw [pc] at hx; exact ⟨hx.1, by simp⟩
  | startErrFails pc => rw [pc] at hx; exact hx.2
  | childWait pc => rw [pc] at hx; cases env.platform <;> exact hx
  | childWaitFails pc =>
    rw [pc] at hx
    rw [ha.resolve_right fun hne => hne _ rfl]
    exact hx
  | killTree pc => rw [pc] at hx; exact hx
  | joinOut pc done => rw [pc] at hx; exact ⟨done, hx.2⟩
  | joinErr pc done => rw [pc] at hx; exact ⟨hx.1, done⟩
  | send pc | exit pc => rw [pc] at hx; exact hx

theorem drained_move [DecidableEq ι] (h : RunMove env c i hd r l r')
    (hl : env.platform = .unix ∨ ∀ e, l ≠ .wait i (.childWait (.error e)))
    (ha : Answered env r) (hw : r.waiter.pc.Drained r.output) :
    r'.waiter.pc.Drained r'.output := by
  cases h with
  | main h =>
    have hkeep : r.waiter.pc.Drained r'.output :=
      hw.mono (fun s => by rw [h.drain_eq]) fun s hs => by rw [h.drain_eq]; exact hs
    rcases h.waiter with hx | ⟨hb, -, hx⟩ | hx <;> rw [hx]
    · exact hkeep
    · rw [ha.before hb] at hkeep
      exact hkeep
    · exact hkeep
  | monitor h => cases h <;> exact hw
  | wait h => exact h.drained (hl.imp id fun hne e he => hne e (he ▸ rfl)) hw
  | @drain s a t o h =>
    refine hw.mono (fun s' => ?_) fun s' hs' => ?_
    · by_cases hs : s' = s
      · subst hs
        exact ⟨fun hi => absurd hi h.pc_ne_idle_after, fun hi => absurd hi h.pc_ne_idle⟩
      · rw [h.drain_ne hs]
    · rw [h.drain_done hs']
      exact hs'
  | proc | cancelKill | other => exact hw

/-- A call of `wait` that has panicked stays so. -/
theorem RunMove.panicked [DecidableEq ι] (h : RunMove env c i hd r l r') (ha : Answered env r)
    (hp : r.waiter.pc = .panicked) : r'.waiter.pc = .panicked := by
  cases h with
  | main h =>
    rcases h.waiter with hx | ⟨hb, -, -⟩ | hx
    · rw [hx]; exact hp
    · rw [ha.before hb] at hp; cases hp
    · rw [hx]; exact hp
  | monitor h => cases h <;> exact hp
  | wait h => cases h <;> simp_all
  | drain | proc | cancelKill | other => exact hp

/-- A drain thread starts once, out of `wait`, and ends once. -/
theorem RunMove.drains [DecidableEq ι] (h : RunMove env c i hd r l r')
    (hw : r.waiter.pc.Drained r.output) (s : Stream) :
    ((r.output.drain s).pc = .done → (r'.output.drain s).pc = .done) ∧
      ((r.output.drain s).pc ≠ .idle → (r'.output.drain s).pc ≠ .idle) ∧
      (r.waiter.pc = .panicked → (r.output.drain s).pc = .idle →
        (r'.output.drain s).pc = .idle) := by
  cases h with
  | main h => rw [h.drain_eq]; exact ⟨id, id, fun _ => id⟩
  | monitor h => cases h <;> exact ⟨id, id, fun _ => id⟩
  | wait h =>
    cases h with
    | startOut pc =>
      rw [pc] at hw
      cases s <;> simp [Output.drain, hw.1, pc]
    | startErr pc =>
      rw [pc] at hw
      cases s <;> simp [Output.drain, hw.2, pc]
    | startOutFails | startErrFails =>
      rw [show _ from Output.drain_with_chunks _ _ s]; exact ⟨id, id, fun _ => id⟩
    | _ => exact ⟨id, id, fun _ => id⟩
  | @drain s' _ _ _ h =>
    refine ⟨fun hdone => ?_, fun hidle => ?_, fun _ hidle => ?_⟩
    · rw [h.drain_done hdone]; exact hdone
    · by_cases hs : s = s'
      · subst hs; exact h.pc_ne_idle_after
      · rw [h.drain_ne hs]; exact hidle
    · rw [h.drain_ne (by rintro rfl; exact h.pc_ne_idle hidle)]; exact hidle
  | proc | cancelKill | other => exact ⟨id, id, fun _ => id⟩

/-- With capture, the step makes `wait` panic when its first drain thread has started. -/
def Label.losesDrain [DecidableEq ι] (cfg : ι → RunConfig) (i : ι) : Label ι → Bool
  | .wait j (.startErr false) => decide (j = i) && (cfg i).captureOutput
  | _ => false

/-- A call of `wait` that has panicked under a pumping run thread has started no drain
thread. -/
def Deserted (c : RunConfig) (r : Run) : Prop :=
  r.waiter.pc = .panicked → c.captureOutput = true → ∀ s, (r.output.drain s).pc = .idle

theorem deserted_move [DecidableEq ι] {cfg : ι → RunConfig} (h : RunMove env (cfg i) i hd r l r')
    (hu : env.platform = .unix) (hw : r.waiter.pc.Drained r.output)
    (hl : l.losesDrain cfg i = false) (hq : Deserted (cfg i) r) : Deserted (cfg i) r' := by
  intro hp hcap s
  have hdrains := h.drains hw s
  by_cases hp₀ : r.waiter.pc = .panicked
  · exact hdrains.2.2 hp₀ (hq hp₀ hcap s)
  · -- it has panicked in this step
    cases h with
    | main h =>
      rcases h.waiter with hx | ⟨-, -, hx⟩ | hx <;> rw [hx] at hp
      · exact absurd hp hp₀
      · cases hp
      · exact absurd hp hp₀
    | monitor h => exact absurd (by cases h <;> exact hp) hp₀
    | wait h =>
      cases h with
      | startOutFails pc =>
        rw [pc] at hw
        cases s
        · exact hw.1
        · exact hw.2
      | startErrFails => simp [Label.losesDrain, hcap] at hl
      | childWait | childWaitFails => simp [WaitPc.afterChildWait, hu] at hp
      | _ => cases hp
    | drain | proc | cancelKill | other => exact absurd hp hp₀

/-! ### Senders and messages -/

theorem ChunkChan.tx_dropTx_self (ch : ChunkChan) (s : Stream) : (ch.dropTx s).tx s = false := by
  cases s <;> rfl

theorem ChunkChan.tx_of_dropTx {ch : ChunkChan} {s s' : Stream} (h : (ch.dropTx s).tx s' = true) :
    s' ≠ s ∧ ch.tx s' = true := by
  have hne : s' ≠ s := by
    rintro rfl
    rw [ChunkChan.tx_dropTx_self] at h
    cases h
  exact ⟨hne, by rwa [ChunkChan.tx_dropTx_ne _ hne] at h⟩

@[simp] theorem ChunkChan.tx_send (ch : ChunkChan) (m : ChunkMsg) (s : Stream) :
    (ch.send m).tx s = ch.tx s := by
  unfold ChunkChan.send
  split
  · cases s <;> rfl
  · rfl

/-- A drain thread that ends drops its sender, and no other. -/
theorem DrainMove.senders {capture : Bool} {s s' : Stream} {t t' : Tree} {o o' : Output}
    {a : DrainAct} (h : DrainMove capture s t o a t' o') (htx : o'.chunks.tx s' = true) :
    o.chunks.tx s' = true ∧ ((o.drain s').pc ≠ .done → (o'.drain s').pc ≠ .done) := by
  -- a drain thread that has ended has dropped its sender
  have hend : (o.endDrain s).chunks.tx s' = true → o.chunks.tx s' = true ∧
      ((o.drain s').pc ≠ .done → ((o.endDrain s).drain s').pc ≠ .done) := fun htx => by
    rw [Output.chunks_endDrain] at htx
    obtain ⟨hne, htx⟩ := ChunkChan.tx_of_dropTx htx
    exact ⟨htx, by rw [show (o.endDrain s).drain s' = o.drain s' from
      Output.drain_setDrain_ne _ _ hne]; exact id⟩
  have hmoves : ∀ o' : Output, (∀ s', s' ≠ s → o'.drain s' = o.drain s') →
      (o'.drain s).pc ≠ .done → (o.drain s').pc ≠ .done → (o'.drain s').pc ≠ .done := by
    intro o' hne hself hs'
    by_cases hs : s' = s
    · rw [hs]; exact hself
    · rw [hne s' hs]; exact hs'
  cases h with
  | readBytes =>
    refine ⟨by simpa using htx, hmoves _ (fun s' hs => Output.drain_setDrain_ne _ _ hs) ?_⟩
    cases capture <;> simp
  | readEof | readError => exact hend htx
  | readInterrupted =>
    cases capture with
    | true => exact hend htx
    | false => exact ⟨htx, id⟩
  | send =>
    refine ⟨by simpa using htx, hmoves _ (fun s' hs => ?_) ?_⟩
    · rw [Output.drain_with_chunks]; exact Output.drain_setDrain_ne _ _ hs
    · simp

theorem senders_move [DecidableEq ι] (h : RunMove env c i hd r l r')
    (hw : r.waiter.pc.Drained r.output) (ha : Answered env r) (hs : Standing c r) (s : Stream)
    (htx : r'.output.chunks.tx s = true) : (r'.output.drain s).pc ≠ .done ∧
      ((r'.output.drain s).pc = .idle → r'.waiter.pc ≠ .panicked) := by
  cases h with
  | main h =>
    rw [h.drain_eq]
    have hpan : r'.waiter.pc = .panicked → r.waiter.pc = .panicked := fun hp => by
      rcases h.waiter with hx | ⟨-, -, hx⟩ | hx <;> rw [hx] at hp
      · exact hp
      · cases hp
      · exact hp
    have hkeep : r.output.chunks.tx s = true → (r.output.drain s).pc ≠ .done ∧
        ((r.output.drain s).pc = .idle → r'.waiter.pc ≠ .panicked) := fun htx =>
      ⟨(hs.senders s htx).1, fun hi hp => (hs.senders s htx).2 hi (hpan hp)⟩
    cases h with
    | openChannel pc =>
      -- the channel is made before `wait` is called
      have hx := ha.before (by rw [pc]; rfl)
      have hidle := ha.drain_idle (.inl (by rw [hx])) s
      exact ⟨by simp [hidle], by simp [hx]⟩
    | startWaitFails =>
      exact hkeep (ChunkChan.tx_of_dropTx (ChunkChan.tx_of_dropTx htx).2).2
    | dropTx | recv | dropLocals => exact hkeep (by cases s <;> exact htx)
    | @joinWait res | @waitReturned res => exact hkeep (by cases res <;> exact htx)
    | _ => exact hkeep htx
  | monitor h => cases h <;> exact hs.senders s htx
  | wait h =>
    cases h with
    | startOut pc =>
      refine ⟨?_, by simp⟩
      cases s with
      | stdout => simp [Output.drain]
      | stderr => exact (hs.senders .stderr htx).1
    | startErr pc =>
      refine ⟨?_, by simp⟩
      cases s with
      | stdout => exact (hs.senders .stdout htx).1
      | stderr => simp [Output.drain]
    | startOutFails pc =>
      obtain ⟨hne, htx⟩ := ChunkChan.tx_of_dropTx htx
      obtain ⟨hne', -⟩ := ChunkChan.tx_of_dropTx htx
      cases s with
      | stdout => exact absurd rfl hne'
      | stderr => exact absurd rfl hne
    | startErrFails pc =>
      obtain ⟨hne, htx⟩ := ChunkChan.tx_of_dropTx htx
      cases s with
      | stdout =>
        rw [pc] at hw
        exact ⟨(hs.senders _ htx).1, fun hi => absurd hi hw.1⟩
      | stderr => exact absurd rfl hne
    | childWait | childWaitFails =>
      exact ⟨(hs.senders s htx).1, by cases env.platform <;> simp [WaitPc.afterChildWait]⟩
    | killTree | joinOut | joinErr | send | exit => exact ⟨(hs.senders s htx).1, by simp⟩
  | @drain s' _ _ _ h =>
    obtain ⟨htx, hdone⟩ := h.senders htx
    refine ⟨hdone (hs.senders s htx).1, fun hi => (hs.senders s htx).2 ?_⟩
    have hne : s ≠ s' := by
      rintro rfl
      exact h.pc_ne_idle_after hi
    rw [← h.drain_ne hne]
    exact hi
  | proc | cancelKill | other => exact hs.senders s htx

/-- The run thread starts to pump when it has dropped its sender. -/
theorem MainMove.txRun {a : MainAct} (h : MainMove env c i hd r a hd' r')
    (hs : r.main.pumps = true → r.output.chunks.txRun = false) (hp : r'.main.pumps = true) :
    r'.output.chunks.txRun = false := by
  cases h with
  | dropTx => rfl
  | startWait pc | recv pc | chunkReturns pc => exact hs (by rw [pc]; rfl)
  | startedReturns | loadCancelled | loadFired | dropLocals =>
    simp only at hp
    split at hp <;> cases hp
  | startMonitor | noMonitor =>
    simp only [RunConfig.afterMonitor] at hp
    split at hp <;> cases hp
  | @joinWait res | @waitReturned res =>
    cases res with
    | ok code =>
      simp only [Run.afterWait] at hp
      split at hp <;> cases hp
    | error e => cases hp
  | _ => cases hp

theorem DrainMove.txRun_eq {capture : Bool} {s : Stream} {t t' : Tree} {o o' : Output}
    {a : DrainAct} (h : DrainMove capture s t o a t' o') : o'.chunks.txRun = o.chunks.txRun := by
  have hdrop : (o.chunks.dropTx s).txRun = o.chunks.txRun := by cases s <;> rfl
  cases h with
  | readBytes => simp
  | readEof | readError => simpa using hdrop
  | readInterrupted =>
    cases capture with
    | true => simpa using hdrop
    | false => rfl
  | send => simp only [ChunkChan.send]; split <;> rfl

/-- A run thread that waits for an answer has just called `wait`, or waited before. -/
theorem MainMove.awaits {a : MainAct} (h : MainMove env c i hd r a hd' r')
    (hp : r'.main.awaits = true) :
    r'.waiter = { r.waiter with pc := .startOut } ∨
      (r.main.awaits = true ∧ r'.waiter = r.waiter) := by
  cases h with
  | startWait | callWait => exact .inl rfl
  | recv pc | recvClosed pc | chunkReturns pc => exact .inr ⟨by rw [pc]; rfl, rfl⟩
  | startedReturns | loadCancelled | loadFired | dropLocals =>
    simp only at hp
    split at hp <;> cases hp
  | startMonitor | noMonitor =>
    simp only [RunConfig.afterMonitor] at hp
    split at hp <;> cases hp
  | @joinWait res | @waitReturned res =>
    cases res with
    | ok code =>
      simp only [Run.afterWait] at hp
      split at hp <;> cases hp
    | error e => cases hp
  | _ => cases hp

theorem WaitMove.pc_ne_idle_after {capture : Bool} {t t' : Tree} {o o' : Output} {x x' : Waiter}
    {a : WaitAct} (h : WaitMove env capture t o x a t' o' x') : x'.pc ≠ .idle := by
  cases h with
  | @childWait status => cases env.platform <;> simp [WaitPc.afterChildWait]
  | @childWaitFails e => cases env.platform <;> simp [WaitPc.afterChildWait]
  | _ => simp

theorem WaitMove.txRun_eq {capture : Bool} {t t' : Tree} {o o' : Output} {x x' : Waiter}
    {a : WaitAct} (h : WaitMove env capture t o x a t' o' x') :
    o'.chunks.txRun = o.chunks.txRun := by
  cases h <;> rfl

/-- A wait thread that has sent its message has just sent it, or had. -/
theorem WaitMove.sent {capture : Bool} {t t' : Tree} {o o' : Output} {x x' : Waiter}
    {a : WaitAct} (h : WaitMove env capture t o x a t' o' x')
    (hpc : x'.pc = .sent ∨ x'.pc = .ended) :
    (capture = true ∧ x'.msg ≠ none) ∨ ((x.pc = .sent ∨ x.pc = .ended) ∧ x'.msg = x.msg) := by
  cases h with
  | send _ thread => exact .inl ⟨thread, by simp⟩
  | exit pc => exact .inr ⟨.inl pc, rfl⟩
  | childWait | childWaitFails =>
    cases hp : env.platform <;> simp [WaitPc.afterChildWait, hp] at hpc
  | _ => rcases hpc with hpc | hpc <;> cases hpc

theorem WaitMove.sent_mono {capture : Bool} {t t' : Tree} {o o' : Output} {x x' : Waiter}
    {a : WaitAct} (h : WaitMove env capture t o x a t' o' x')
    (hpc : x.pc = .sent ∨ x.pc = .ended) : x'.pc = .sent ∨ x'.pc = .ended := by
  cases h with
  | send => exact .inl rfl
  | exit => exact .inr rfl
  | _ pc => rcases hpc with hpc | hpc <;> rw [pc] at hpc <;> cases hpc

theorem MainEdge.of_joinWait {m : MainPc} {a : MainAct} {res : Except AerError ℤ}
    (h : MainEdge env c m a (.joinWait res)) : m = .recvWait ∧ a = .recvWait := by
  cases h
  exact ⟨rfl, rfl⟩

theorem standing_move [DecidableEq ι] (h : RunMove env c i hd r l r')
    (hw : r.waiter.pc.Drained r.output) (ha : Answered env r) (hmsg : r.waiter.Sent)
    (hs : Standing c r) : Standing c r' := by
  have senders := senders_move h hw ha hs
  cases h with
  | main h =>
    refine ⟨senders, h.txRun hs.txRun, fun hp => ?_, fun hpc => ?_, fun res hres => ?_⟩
    · rcases h.awaits hp with hx | ⟨hp, hx⟩ <;> rw [hx]
      · simp
      · exact hs.called hp
    · have hpc₀ : r.waiter.pc = .sent ∨ r.waiter.pc = .ended := by
        rcases h.waiter with hx | ⟨-, -, hx⟩ | hx <;> rw [hx] at hpc
        · exact hpc
        · rcases hpc with hpc | hpc <;> cases hpc
        · exact hpc
      refine ⟨(hs.sent hpc₀).1, fun hp => ?_⟩
      rcases h.awaits hp with hx | ⟨hp, hx⟩
      · rw [hx] at hpc
        rcases hpc with hpc | hpc <;> cases hpc
      · rw [hx]
        exact (hs.sent hpc₀).2 hp
    · obtain ⟨-, rfl⟩ := (hres ▸ h.edge).of_joinWait
      cases h with
      | recvWait _ msg => exact hmsg (by simp [msg])
      | recvWaitLost => cases hres
  | monitor h =>
    have hmain := h.main_eq
    have hwaiter := h.waiter_eq
    have houtput := h.output_eq
    refine ⟨senders, ?_, ?_, ?_, ?_⟩
    · rw [hmain, houtput]; exact hs.txRun
    · rw [hmain, hwaiter]; exact hs.called
    · rw [hmain, hwaiter]; exact hs.sent
    · rw [hmain, hwaiter]; exact hs.received
  | wait h =>
    refine ⟨senders, ?_, fun _ => h.pc_ne_idle_after, fun hpc => ?_, fun res hres => ?_⟩
    · intro hp
      rw [h.txRun_eq]
      exact hs.txRun hp
    · rcases h.sent hpc with ⟨hcap, hm⟩ | ⟨hpc, hm⟩
      · exact ⟨hcap, fun _ => hm⟩
      · exact ⟨(hs.sent hpc).1, fun hp => by rw [hm]; exact (hs.sent hpc).2 hp⟩
    · exact h.sent_mono (hs.received res hres)
  | drain h =>
    exact ⟨senders, fun hp => h.txRun_eq.trans (hs.txRun hp), hs.called, hs.sent, hs.received⟩
  | proc | cancelKill | other => exact ⟨senders, hs.txRun, hs.called, hs.sent, hs.received⟩

/-! ### The root -/

/-- A root that was spawned stays in the group, dead or alive. -/
theorem TreeMove.led (h : TreeMove env t t') (hroot : t.root ≠ .unborn)
    (hin : t.leader.inGroup = true) : t'.root ≠ .unborn ∧ t'.leader.inGroup = true := by
  refine ⟨fun hu => hroot (h.unborn.mp hu), ?_⟩
  cases h with
  | proc h => exact (procStep_leader h).trans hin
  | forced h => exact h.leader.trans hin

theorem Tree.rootReaped_killGroup (t : Tree) (status : Option ℤ) :
    (t.killGroup status).rootReaped = t.rootReaped := by
  cases hin : t.leader.inGroup <;> cases hr : t.root <;>
    simp [Tree.killGroup, Tree.rootReaped, Tree.rootLive, hr, hin]

theorem rootReaped_of_killEscalating {grace : Grace} {k k' : KillPc} {a : KillAct}
    (h : killEscalatingStep env grace t k a = some (t', k')) : t'.rootReaped = t.rootReaped := by
  rcases killEscalatingStep_tree h with rfl | ⟨status, rfl⟩ | ⟨status, rfl⟩
  · rfl
  · exact t.rootReaped_killGroup status
  · cases hr : t.root <;> simp [Tree.killRoot, Tree.rootReaped, Tree.rootLive, hr]

theorem rootReaped_of_killTree {x : Reply} (h : killTree env t x = some t') :
    t'.rootReaped = t.rootReaped := by
  unfold killTree at h
  split at h <;> rw [Option.ite_none_right_eq_some] at h <;> obtain ⟨-, h⟩ := h <;> cases h <;>
    split <;> first | exact t.rootReaped_killGroup _ | rfl

/-- The root of a run that is under way leads its group, and nobody has reaped it before
`child.wait()` has. -/
structure Rooted (r : Run) : Prop where
  /-- `spawn` is one step. -/
  spawning : ∀ s, r.main = .spawn s → s = .command
  /-- There is a root, and it is a member of the group. -/
  led : r.main.underway = true → r.tree.root ≠ .unborn ∧ r.tree.leader.inGroup = true
  /-- Only `wait` and the guard reap it. -/
  unreaped : r.main.underway = true → r.waiter.pc.beforeReap = true → r.tree.rootReaped = false

/-- The run thread makes no step after it has left. -/
theorem MainEdge.underway {m m' : MainPc} {a : MainAct} (h : MainEdge env c m a m') :
    m.underway = true ∨ ∃ b, a = .spawn b := by
  cases h <;> first | exact .inl rfl | exact .inr ⟨_, rfl⟩

theorem spawnStep_unix {b : SpawnAct} {n : SpawnNext} (hu : env.platform = .unix)
    (h : spawnStep env t .command b = some (t', n)) :
    ((∃ e, n = .failed e) ∧ t' = t) ∨ ((∃ pid, n = .ok pid) ∧ t' = Tree.spawned true) := by
  cases b with
  | command x =>
    simp only [spawnStep, hu, Option.some.injEq] at h
    cases x with
    | error e => cases h; exact .inl ⟨⟨e, rfl⟩, rfl⟩
    | ok pid => cases h; exact .inr ⟨⟨pid, rfl⟩, rfl⟩
  | _ => cases h

theorem MainMove.rooted {a : MainAct} (h : MainMove env c i hd r a hd' r')
    (ha : Answered env r) (htree : TreeMove env r.tree r'.tree) (hspawn : ∀ b, a ≠ .spawn b)
    (hr : Rooted r) : Rooted r' := by
  have hunder : r.main.underway = true :=
    h.edge.underway.resolve_right fun ⟨b, hb⟩ => hspawn b hb
  refine ⟨fun s hs => ?_, fun hm => ?_, fun hm hx => ?_⟩
  · obtain ⟨-, b, rfl⟩ := (hs ▸ h.edge).of_spawn
    exact absurd rfl (hspawn b)
  · obtain ⟨hroot, hin⟩ := hr.led hunder
    exact htree.led hroot hin
  · have hx₀ : r.waiter.pc.beforeReap = true := by
      rcases h.waiter with hw | ⟨hb, -, -⟩ | hw
      · rw [← hw]; exact hx
      · rw [ha.before hb]; rfl
      · rw [hw] at hx; exact hx
    have hreap := hr.unreaped hunder hx₀
    cases h with
    | spawnMore | spawnOk | spawnFailed => exact absurd rfl (hspawn _)
    | killMore _ hk | killDone _ hk | guardMore _ hk | guardDone _ hk =>
      exact (rootReaped_of_killEscalating hk).trans hreap
    | guardReap => cases hm
    | @joinWait res | @waitReturned res => cases res <;> exact hreap
    | _ => exact hreap

/-- The root stays where it is when neither `wait` nor the guard moves. -/
theorem Rooted.frame (hr : Rooted r) (htree : TreeMove env r.tree r'.tree)
    (hmain : r'.main = r.main)
    (hwait : r'.waiter.pc.beforeReap = true → r.waiter.pc.beforeReap = true ∧
      (r.tree.rootReaped = false → r'.tree.rootReaped = false)) : Rooted r' := by
  refine ⟨?_, ?_, ?_⟩ <;> rw [hmain]
  · exact hr.spawning
  · exact fun hm => htree.led (hr.led hm).1 (hr.led hm).2
  · exact fun hm hx => (hwait hx).2 (hr.unreaped hm (hwait hx).1)

theorem rooted_move [DecidableEq ι] (h : RunMove env c i hd r l r') (hu : env.platform = .unix)
    (ha : Answered env r) (hr : Rooted r) : Rooted r' := by
  have htree := h.tree
  cases h with
  | @main a _ _ h =>
    by_cases hsp : ∃ b, a = .spawn b
    · obtain ⟨b, rfl⟩ := hsp
      cases h with
      | spawnMore pc hstep =>
        obtain rfl := hr.spawning _ pc
        rcases spawnStep_unix hu hstep with ⟨⟨e, he⟩, -⟩ | ⟨⟨pid, hpid⟩, -⟩
        · cases he
        · cases hpid
      | spawnOk pc hstep =>
        obtain rfl := hr.spawning _ pc
        rcases spawnStep_unix hu hstep with ⟨⟨e, he⟩, -⟩ | ⟨-, rfl⟩
        · cases he
        · refine ⟨fun s hs => ?_, fun _ => ⟨by simp [Tree.spawned], rfl⟩, fun _ _ => rfl⟩
          cases hs
      | spawnFailed =>
        refine ⟨fun s hs => ?_, fun hm => ?_, fun hm => ?_⟩
        · cases hs
        · cases hm
        · cases hm
    · exact h.rooted ha (htree (by simpa using hsp)) (by simpa using hsp) hr
  | monitor h =>
    have hmain := h.main_eq
    have hwaiter := h.waiter_eq
    have hreap : r'.tree.rootReaped = r.tree.rootReaped := by
      cases h with
      | killMore _ hk | killDone _ hk => exact rootReaped_of_killEscalating hk
      | _ => rfl
    refine hr.frame (htree (by simp)) hmain fun hx => ⟨hwaiter ▸ hx, fun hf => hreap.trans hf⟩
  | wait h =>
    refine hr.frame (htree (by simp)) rfl fun hx => ?_
    cases h with
    | startOut pc | startErr pc => exact ⟨by rw [pc]; rfl, id⟩
    | childWait | childWaitFails => simp [WaitPc.afterChildWait, WaitPc.beforeReap, hu] at hx
    | _ => cases hx
  | drain h =>
    refine hr.frame (htree (by simp)) rfl fun hx => ⟨hx, fun hf => ?_⟩
    cases h with
    | readBytes => simpa [Tree.rootReaped] using hf
    | _ => exact hf
  | proc h =>
    refine hr.frame (htree (by simp)) rfl fun hx => ⟨hx, fun hf => ?_⟩
    rcases procStep_root h with hroot | ⟨-, status, hroot⟩ <;>
      simp only [Tree.rootReaped, hroot] at hf ⊢
    exact hf
  | cancelKill h =>
    exact hr.frame (htree (by simp)) rfl fun hx =>
      ⟨hx, fun hf => (rootReaped_of_killEscalating h).trans hf⟩
  | other => exact hr

end Moves

/-! ### Whole runs -/

section Runs

variable [DecidableEq ι] {env : Env} {cfg : ι → RunConfig} {tr : List (Label ι)} {w : World ι}

/-- `wait` cleans up after `child.wait()`: the backend is the Unix one, or `child.wait()` has
not failed. -/
def Orderly (env : Env) (i : ι) (tr : List (Label ι)) : Prop :=
  env.platform = .unix ∨ ∀ e, .wait i (.childWait (.error e)) ∉ tr

omit [DecidableEq ι] in
theorem Orderly.of_append {i : ι} {tr' : List (Label ι)} (h : Orderly env i (tr ++ tr')) :
    Orderly env i tr :=
  h.imp id fun hne e he => hne e (List.mem_append_left _ he)

theorem drained_of_orderly (h : Reaches env cfg tr w) {i : ι} (ho : Orderly env i tr) :
    (w.runs i).waiter.pc.Drained (w.runs i).output := by
  refine Lts.exec_invariant
    (P := fun tr w => Orderly env i tr → (w.runs i).waiter.pc.Drained (w.runs i).output) ?_ ?_ h ho
  · exact fun _ => ⟨rfl, rfl⟩
  · intro tr w l w' hw hd hstep ho
    exact drained_move (runMove_of_step hstep i) (ho.imp id fun hne e he => hne e (by simp [he]))
      (answered_of_reaches hw i) (hd ho.of_append)

theorem standing_of_orderly (h : Reaches env cfg tr w) {i : ι} (ho : Orderly env i tr) :
    Standing (cfg i) (w.runs i) := by
  refine Lts.exec_invariant
    (P := fun tr w => Orderly env i tr → Standing (cfg i) (w.runs i)) ?_ ?_ h ho
  · refine fun _ => ⟨fun s htx => ?_, fun hp => ?_, fun hp => ?_, fun hpc => ?_, fun res hres => ?_⟩
    · cases s <;> cases htx
    · cases hp
    · cases hp
    · rcases hpc with hpc | hpc <;> cases hpc
    · cases hres
  · intro tr w l w' hw hs hstep ho
    exact standing_move (runMove_of_step hstep i) (drained_of_orderly hw ho.of_append)
      (answered_of_reaches hw i) (sent_of_reaches hw i) (hs ho.of_append)

theorem drained_of_reaches (h : Reaches env cfg tr w) (hu : env.platform = .unix) (i : ι) :
    (w.runs i).waiter.pc.Drained (w.runs i).output :=
  drained_of_orderly h (.inl hu)

theorem standing_of_reaches (h : Reaches env cfg tr w) (hu : env.platform = .unix) (i : ι) :
    Standing (cfg i) (w.runs i) :=
  standing_of_orderly h (.inl hu)

theorem rooted_of_reaches (h : Reaches env cfg tr w) (hu : env.platform = .unix) (i : ι) :
    Rooted (w.runs i) := by
  refine Lts.exec_invariant (P := fun _ w => Rooted (w.runs i)) ?_ ?_ h
  · refine ⟨fun s hs => ?_, fun hm => ?_, fun hm => ?_⟩
    · cases hs
      rw [hu]
      rfl
    · cases hm
    · cases hm
  · intro _ w l w' hw hr hstep
    exact rooted_move (runMove_of_step hstep i) hu (answered_of_reaches hw i) hr

theorem deserted_of_reaches (h : Reaches env cfg tr w) (hu : env.platform = .unix) {i : ι}
    (hl : ∀ l ∈ tr, l.losesDrain cfg i = false) : Deserted (cfg i) (w.runs i) := by
  refine Lts.exec_invariant (P := fun tr w => (∀ l ∈ tr, l.losesDrain cfg i = false) →
    Deserted (cfg i) (w.runs i)) ?_ ?_ h hl
  · intro _ hp
    cases hp
  · intro tr w l w' hw ih hstep hl
    exact deserted_move (runMove_of_step hstep i) hu (drained_of_reaches hw hu i) (hl l (by simp))
      (ih fun l hm => hl l (List.mem_append_left _ hm))

/-! ### The mutex and the callback -/

/-- A slot that is locked is held by a call of `cancel()`. -/
theorem exists_holder_of_reaches (h : Reaches env cfg tr w) (hl : w.handle.locked = true) :
    ∃ k, (w.callers k).holdsLock = true := by
  refine Lts.exec_invariant (P := fun _ w => w.handle.locked = true →
    ∃ k, (w.callers k).holdsLock = true) ?_ ?_ h hl
  · intro hl
    cases hl
  · intro _ w l w' hw ih hstep hl
    cases handleMove_of_step hstep with
    | inner _ hh hc => rw [hc]; exact ih (hh ▸ hl)
    | main h =>
      have hkeep : w.handle.locked = true := by
        rcases h.handle with rfl | ⟨-, -, rfl⟩ | ⟨-, -, -, rfl⟩ | ⟨-, -, -, rfl⟩ <;> exact hl
      exact ih hkeep
    | @cancel k a _ h =>
      -- whoever moves holds the mutex afterwards, or somebody else did before
      have hother : (w.callers k).holdsLock = false → w.handle.locked = true →
          ∃ k', (w'.callers k').holdsLock = true := by
        intro hk hlocked
        obtain ⟨k', hk'⟩ := ih hlocked
        refine ⟨k', ?_⟩
        rw [h.callers_ne (by rintro rfl; rw [hk] at hk'; cases hk')]
        exact hk'
      cases h with
      | swapFirst pc | swapAgain pc => exact hother (by rw [pc]; rfl) hl
      | unlock => cases hl
      | _ => exact ⟨k, by rw [setCaller_callers_self]; rfl⟩

omit [DecidableEq ι] in
theorem MainEdge.inCallback {c : RunConfig} {m m' : MainPc} {a : MainAct}
    (h : MainEdge env c m a m') (ha : a.endsCallback = true) : m.inCallback = true := by
  cases h <;> first | rfl | cases ha

omit [DecidableEq ι] in
/-- A callback is left by its return or by a panic. -/
theorem MainEdge.endsCallback {c : RunConfig} {m m' : MainPc} {a : MainAct}
    (h : MainEdge env c m a m') (hm : m.inCallback = true) : a.endsCallback = true := by
  cases h <;> first | rfl | cases hm

theorem mayCall_of_swap {k : CallerId ι} {was : Bool} {w' : World ι}
    (h : step env cfg w (.cancel k (.swap was)) = some w') : w.mayCall k = true := by
  simp only [step, cancelStep] at h
  split at h
  · exact (Option.ite_none_right_eq_some.mp h).1.1
  · cases h

/-- A call of `cancel()` begins with the swap. -/
theorem callers_or_swaps {w' : World ι} {l : Label ι} (h : step env cfg w l = some w')
    (k : CallerId ι) :
    (∃ was, l = .cancel k (.swap was)) ∨ (w'.callers k ≠ .idle → w.callers k ≠ .idle) := by
  cases handleMove_of_step h with
  | inner _ _ hc => exact .inr fun hk => by rwa [hc] at hk
  | main => exact .inr id
  | @cancel k' a _ h =>
    by_cases hk : k = k'
    · subst hk
      cases h with
      | swapFirst | swapAgain => exact .inl ⟨_, rfl⟩
      | _ pc => exact .inr fun _ => by rw [pc]; simp
    · exact .inr fun hne => by rwa [h.callers_ne hk] at hne

/-- A call of `cancel()` that a callback has made is made while the callback runs. -/
theorem inCallback_of_reaches (h : Reaches env cfg tr w) {i : ι}
    (hk : w.callers (.callback i) ≠ .idle) : (w.runs i).main.inCallback = true := by
  refine Lts.exec_invariant (P := fun _ w => w.callers (.callback i) ≠ .idle →
    (w.runs i).main.inCallback = true) ?_ ?_ h hk
  · intro hk
    exact absurd rfl hk
  · intro _ w l w' hw ih hstep hk
    have hcallers := callers_or_swaps hstep (.callback i)
    rcases hcallers with ⟨was, rfl⟩ | hcallers
    · -- a callback calls only while it runs
      have hmain := (mainMove_or_stays hstep i).resolve_left fun ⟨a, ha, _⟩ => by cases ha
      rw [hmain.2]
      exact mayCall_of_swap hstep
    · have hk₀ := hcallers hk
      rcases mainMove_or_stays hstep i with ⟨a, rfl, hmove⟩ | ⟨-, hm⟩
      · -- and it does not return before the call has
        have hends := hmove.edge.endsCallback (ih hk₀)
        simp [step, hends, hk₀] at hstep
      · rw [hm]
        exact ih hk₀

end Runs

end AerCore
