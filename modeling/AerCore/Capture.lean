import AerCore.Lifecycle

/-!
# Captured output

With capture on, the bytes of the two pipes travel through two drain threads,
one channel and the run thread to the callback.  The labels of a run record what
every `read` returned, so "nothing is lost, duplicated, reordered or
cross-wired" is a relation between the labels and the events.

The invariant says, for each stream and wherever the bytes are on their way,
that the chunks already delivered followed by those in the channel are the
pieces read so far, numbered from zero.

## Main definitions

* `readsOf`, `bytesRead` — what the reads of a pipe returned.
* `chunksOf` — the chunks of a stream among the events.
* `Delivered` — the chunks are exactly the bytes that were read.
* `Stage`, `CaptureAt` — the invariant, by how far the run thread has come.

## Main results

* `captureAt_of_reaches` — the invariant holds in every reachable world.
* `captured_output_is_exact` — **captured output is neither lost, duplicated,
  reordered nor cross-wired**.
-/

namespace AerCore

variable {ι : Type*}

/-! ### What was read -/

/-- The read returned bytes. -/
def ReadResult.isBytes : ReadResult → Bool
  | .bytes _ => true
  | .eof | .interrupted | .error _ => false

/-- The result of the read of stream `s` of run `i` that the label records. -/
def Label.readOf? [DecidableEq ι] (i : ι) (s : Stream) : Label ι → Option ReadResult
  | .drain j s' (.read x) => if j = i ∧ s' = s then some x else none
  | _ => none

/-- The results of the reads of stream `s` of run `i`, in order. -/
def readsOf [DecidableEq ι] (i : ι) (s : Stream) (tr : List (Label ι)) : List ReadResult :=
  tr.filterMap (Label.readOf? i s)

/-- The bytes returned up to the first end of file or error. -/
def bytesRead : List ReadResult → List UInt8
  | .bytes bs :: rs => bs ++ bytesRead rs
  | _ => []

theorem readsOf_concat [DecidableEq ι] (i : ι) (s : Stream) (tr : List (Label ι)) (l : Label ι) :
    readsOf i s (tr ++ [l]) = readsOf i s tr ++ (l.readOf? i s).toList := by
  simp only [readsOf, List.filterMap_append]
  cases h : l.readOf? i s <;> simp [h]

theorem mem_readsOf [DecidableEq ι] {i : ι} {s : Stream} {tr : List (Label ι)}
    {x : ReadResult} : x ∈ readsOf i s tr ↔ .drain i s (.read x) ∈ tr := by
  simp only [readsOf, List.mem_filterMap]
  constructor
  · rintro ⟨l, hl, hx⟩
    cases l with
    | drain j s' a =>
      cases a with
      | read y =>
        simp only [Label.readOf?, Option.ite_none_right_eq_some, Option.some.injEq] at hx
        obtain ⟨⟨rfl, rfl⟩, rfl⟩ := hx
        exact hl
      | send => cases hx
    | _ => cases hx
  · exact fun h => ⟨_, h, by simp [Label.readOf?]⟩

/-! ### What was delivered -/

/-- The number and the bytes of a chunk of stream `s`. -/
def Event.chunkOf? : Stream → Event → Option (ℕ × List UInt8)
  | .stdout, .stdoutChunk seq bs => some (seq, bs)
  | .stderr, .stderrChunk seq bs => some (seq, bs)
  | _, _ => none

@[simp] theorem chunkOf?_started (s : Stream) (pid : ℕ) :
    Event.chunkOf? s (.started pid) = none := by
  cases s <;> rfl

@[simp] theorem chunkOf?_exited (s : Stream) (code : ℤ) (reason : ExitReason) :
    Event.chunkOf? s (.exited code reason) = none := by
  cases s <;> rfl

/-- The chunks of stream `s` among the events, in order. -/
def chunksOf (s : Stream) (es : List Event) : List (ℕ × List UInt8) :=
  es.filterMap (Event.chunkOf? s)

/-- The chunks carry the numbers 0, 1, 2, … and are not empty nor larger than the buffer. -/
structure Numbered (chunks : List (ℕ × List UInt8)) : Prop where
  /-- No gap and no repetition. -/
  seqs : chunks.map Prod.fst = List.range chunks.length
  /-- A chunk is what one read returned. -/
  sizes : ∀ p ∈ chunks, 1 ≤ p.2.length ∧ p.2.length ≤ bufSize

/-- The chunks are exactly the bytes that the reads returned. -/
structure Delivered (reads : List ReadResult) (chunks : List (ℕ × List UInt8)) : Prop
    extends Numbered chunks where
  /-- Nothing is lost, duplicated or reordered. -/
  bytes : (chunks.map Prod.snd).flatten = bytesRead reads

/-- The chunks of stream `s` that have left its drain thread: delivered, then queued. -/
def sentOf (s : Stream) (r : Run) : List (ℕ × List UInt8) :=
  chunksOf s (r.events ++ r.output.chunks.queue.map ChunkMsg.event)

/-- The sender of a stream is alive. -/
def ChunkChan.tx (ch : ChunkChan) : Stream → Bool
  | .stdout => ch.txOut
  | .stderr => ch.txErr

/-! ### The invariant -/

/-- The pieces that have left the drain thread are those it has read, but for the one
in its hands. -/
def ReadSoFar (reads : List ReadResult) (chunks : List (ℕ × List UInt8)) (d : Drain) : Prop :=
  match d.pc with
  | .idle => reads = [] ∧ chunks = []
  | .reading => reads = chunks.map (fun p => .bytes p.2) ∧ d.seq = chunks.length
  | .sending bs => reads = chunks.map (fun p => .bytes p.2) ++ [.bytes bs] ∧
      d.seq = chunks.length ∧ 1 ≤ bs.length ∧ bs.length ≤ bufSize
  | .done => ∃ last, last.isBytes = false ∧ reads = chunks.map (fun p => .bytes p.2) ++ [last]

/-- The stream is on its way as it should be. -/
def InOrder [DecidableEq ι] (i : ι) (s : Stream) (tr : List (Label ι)) (r : Run) : Prop :=
  Numbered (sentOf s r) ∧ ReadSoFar (readsOf i s tr) (sentOf s r) (r.output.drain s)

/-- The sender of a stream is dropped only when its drain thread has ended, or will
never start. -/
def SenderKept (s : Stream) (r : Run) : Prop :=
  r.output.chunks.tx s = false →
    (r.output.drain s).pc = .done ∨ ((r.output.drain s).pc = .idle ∧ r.waiter.pc = .panicked)

/-- The drain thread of `s` ended before the pump loop did. -/
def EndedBeforePump (i : ι) (s : Stream) (tr : List (Label ι)) : Prop :=
  ∃ last : ReadResult, last.isBytes = false ∧
    [.drain i s (.read last), .main i .recvClosed].Sublist tr

/-- The result of a run that emits `Exited`. -/
def isVerdict : Except AerError Unit → Bool
  | .ok () | .error .timedOut | .error .cancelled => true
  | .error _ => false

/-- How far the delivery has come. -/
inductive Stage
  /-- The channel does not exist yet. -/
  | before
  /-- The pump loop runs, or is about to. -/
  | pumping
  /-- The channel has closed; the answer of `wait` is awaited. -/
  | pumped
  /-- `wait` has answered with a code. -/
  | settled
  /-- The run ends without `Exited`, or without capture. -/
  | abandoned
  deriving DecidableEq

/-- The stage that goes with a way out. -/
def Outcome.stage : Outcome → Stage
  | .ret res => if isVerdict res then .settled else .abandoned
  | .unwound => .abandoned

/-- The stage the run thread is in. -/
def MainPc.stage : MainPc → Stage
  | .spawn _ | .toRunning _ | .inStarted | .wire | .loadCancelled | .loadFired | .probe _ | .fire
  | .kill _ | .startMonitor | .openChannel => .before
  | .dropTx | .startWait | .pump | .inChunk => .pumping
  | .recvWait | .joinWait _ => .pumped
  | .clear _ | .stopMonitor _ | .loadTimedOut _ | .loadKillFired _ _ | .toExited _ _ _
  | .inExited _ _ => .settled
  | .leave o | .guardKill _ o | .guardReap o | .finished o => o.stage
  | .callWait | .inWait => .abandoned

/-- **The invariant of a captured run.** -/
def CaptureAt [DecidableEq ι] (i : ι) (tr : List (Label ι)) (r : Run) : Stage → Prop
  | .before => ∀ s, readsOf i s tr = [] ∧ sentOf s r = []
  | .pumping => r.output.chunks.rx = true ∧ ∀ s, InOrder i s tr r ∧ SenderKept s r
  | .pumped => r.output.chunks.queue = [] ∧ ∀ s, InOrder i s tr r ∧ SenderKept s r ∧
      r.output.chunks.tx s = false ∧ (r.waiter.pc = .panicked ∨ EndedBeforePump i s tr)
  | .settled => r.output.chunks.queue = [] ∧ ∀ s, InOrder i s tr r ∧
      (r.output.drain s).pc = .done ∧ EndedBeforePump i s tr
  | .abandoned => True

/-! ### Each move keeps it -/

section Moves

variable {env : Env} {c : RunConfig} {i : ι} {hd hd' : CancelHandle ι} {r r' : Run}
  {tr tr' : List (Label ι)} {l : Label ι}

theorem EndedBeforePump.mono {s : Stream} (hsub : tr.Sublist tr') (h : EndedBeforePump i s tr) :
    EndedBeforePump i s tr' := by
  obtain ⟨last, hlast, hmem⟩ := h
  exact ⟨last, hlast, hmem.trans hsub⟩

/-- The invariant survives whatever leaves the streams where they are. -/
theorem CaptureAt.frame [DecidableEq ι] {st : Stage} (h : CaptureAt i tr r st)
    (hsub : tr.Sublist tr')
    (hreads : ∀ s, readsOf i s tr' = readsOf i s tr) (hsent : ∀ s, sentOf s r' = sentOf s r)
    (hdrain : ∀ s, r'.output.drain s = r.output.drain s)
    (hqueue : r.output.chunks.queue = [] → r'.output.chunks.queue = [])
    (htx : ∀ s, r'.output.chunks.tx s = r.output.chunks.tx s)
    (hrx : st = .pumping → r'.output.chunks.rx = r.output.chunks.rx)
    (hpan : r.waiter.pc = .panicked → r'.waiter.pc = .panicked) : CaptureAt i tr' r' st := by
  have horder : ∀ s, InOrder i s tr r → InOrder i s tr' r' := by
    intro s
    unfold InOrder
    rw [hreads, hsent, hdrain]
    exact id
  have hkept : ∀ s, SenderKept s r → SenderKept s r' := by
    intro s hk
    unfold SenderKept
    rw [htx, hdrain]
    exact fun ht => (hk ht).imp id fun ⟨hi, hp⟩ => ⟨hi, hpan hp⟩
  cases st with
  | before => exact fun s => ⟨(hreads s).trans (h s).1, (hsent s).trans (h s).2⟩
  | pumping =>
    exact ⟨(hrx rfl).trans h.1, fun s => ⟨horder s (h.2 s).1, hkept s (h.2 s).2⟩⟩
  | pumped =>
    refine ⟨hqueue h.1, fun s => ?_⟩
    obtain ⟨ho, hk, ht, he⟩ := h.2 s
    exact ⟨horder s ho, hkept s hk, (htx s).trans ht, he.imp hpan (.mono hsub)⟩
  | settled =>
    refine ⟨hqueue h.1, fun s => ?_⟩
    obtain ⟨ho, hd, he⟩ := h.2 s
    exact ⟨horder s ho, (congrArg Drain.pc (hdrain s)).trans hd, he.mono hsub⟩
  | abandoned => trivial

/-- A label of the run thread records no read. -/
theorem readsOf_main [DecidableEq ι] (s : Stream) (a : MainAct) :
    readsOf i s (tr ++ [.main i a]) = readsOf i s tr := by
  simp [readsOf_concat, Label.readOf?]

theorem Outcome.stage_eq (o : Outcome) : o.stage = .settled ∨ o.stage = .abandoned := by
  cases o with
  | ret res => simp only [Outcome.stage]; split <;> simp
  | unwound => exact .inr rfl

theorem MainPc.beforeWait_of_stage {m : MainPc} (h : m.stage = .before) :
    m.beforeWait = true := by
  cases m with
  | leave o | guardKill _ o | guardReap o | finished o =>
    simp only [MainPc.stage] at h
    rcases o.stage_eq with ho | ho <;> rw [ho] at h <;> cases h
  | _ => first | rfl | cases h

theorem isVerdict_runResult (t cn : Bool) : isVerdict (runResult t cn) = true := by
  cases t <;> cases cn <;> rfl

theorem isVerdict_of_transition {m : StateMachine} {next : State} {e : AerError}
    (h : m.transition next = .error e) : isVerdict (.error e) = false := by
  unfold StateMachine.transition at h
  split at h <;> cases h
  rfl

/-- The run thread moves chunks from the channel to the events, in order. -/
theorem MainMove.sentOf_eq {a : MainAct} (h : MainMove env c i hd r a hd' r') (s : Stream)
    (hopen : r.main = .openChannel → sentOf s r = [])
    (hexit : r.main.stage = .settled → r.output.chunks.queue = []) :
    sentOf s r' = sentOf s r := by
  cases h with
  | started => simp [sentOf, chunksOf]
  | openChannel pc =>
    have := hopen pc
    simp only [sentOf, chunksOf, List.filterMap_append, List.append_eq_nil_iff] at this ⊢
    simp [this]
  | recv _ queue => simp [sentOf, queue]
  | exited pc =>
    have hq := hexit (by rw [pc]; rfl)
    simp [sentOf, chunksOf, hq]
  | @joinWait res | @waitReturned res => cases res <;> rfl
  | _ => rfl

/-- Before `wait` is called its drain threads do not exist. -/
theorem Answered.drain_idle (ha : Answered env r)
    (hpc : r.waiter.pc = .idle ∨ r.waiter.pc = .startOut) (s : Stream) :
    (r.output.drain s).pc = .idle := by
  have hw := ha.wait
  rcases hpc with hpc | hpc <;> rw [hpc] at hw <;> cases s
  · exact hw.1
  · exact hw.2
  · exact hw.1
  · exact hw.2

/-- The run thread keeps the invariant. -/
theorem MainMove.captureAt [DecidableEq ι] {a : MainAct} (h : MainMove env c i hd r a hd' r')
    (hcap : c.captureOutput = true) (hl : Lifecycle c r) (ha : Answered env r)
    (hc : CaptureAt i tr r r.main.stage) :
    CaptureAt i (tr ++ [.main i a]) r' r'.main.stage := by
  have hsub : tr.Sublist (tr ++ [.main i a]) := List.sublist_append_left _ _
  have hsent : ∀ s, sentOf s r' = sentOf s r := fun s => by
    refine h.sentOf_eq s (fun pc => ?_) fun hst => ?_
    · rw [pc] at hc
      exact (hc s).2
    · rw [hst] at hc
      exact hc.1
  have hdrain := h.drain_eq
  have hpan : r.waiter.pc = .panicked → r'.waiter.pc = .panicked := fun hp => by
    rcases h.waiter with hw | ⟨hb, -, -⟩ | hw
    · rw [hw]; exact hp
    · rw [ha.before hb] at hp; cases hp
    · rw [hw]; exact hp
  have hreads : ∀ s, readsOf i s (tr ++ [.main i a]) = readsOf i s tr := fun s => readsOf_main s a
  have frame := fun hq htx hrx => hc.frame hsub hreads hsent hdrain hq htx hrx hpan
  cases h with
  | spawnMore pc | spawnOk pc | started pc | wire pc | probeMore pc | probeAlive pc | probeDead pc
  | fire pc | killMore pc | killDone pc | startWait pc | chunkReturns pc | recvWait pc | clear pc
  | stopMonitor pc | loadTimedOut pc | loadKillFired pc | exited pc | guardMore pc | guardDone pc
  | guardReap pc =>
    rw [pc] at frame
    exact frame id (fun _ => rfl) fun _ => rfl
  | startedReturns pc | loadCancelled pc | loadFired pc =>
    rw [pc] at frame
    simp only
    split <;> exact frame id (fun _ => rfl) fun _ => rfl
  | startMonitor pc | noMonitor pc =>
    rw [pc] at frame
    simp only [RunConfig.afterMonitor, hcap]
    exact frame id (fun _ => rfl) fun _ => rfl
  | spawnFailed | startedPanics | startMonitorFails | startWaitFails | chunkPanics | recvWaitLost
  | waitPanicked | exitedPanics => trivial
  | startedRefused pc he | exitedRefused pc he =>
    simp [MainPc.stage, Outcome.stage, isVerdict_of_transition he, CaptureAt]
  | openChannel pc =>
    rw [pc] at hc
    refine ⟨rfl, fun s => ?_⟩
    have hidle := ha.drain_idle (.inl (by rw [ha.before (by rw [pc]; rfl)])) s
    refine ⟨?_, fun htx => by cases s <;> cases htx⟩
    unfold InOrder ReadSoFar
    rw [hsent, hreads, hdrain, hidle, (hc s).1, (hc s).2]
    exact ⟨⟨rfl, fun p hp => by cases hp⟩, rfl, rfl⟩
  | dropTx pc =>
    rw [pc] at frame
    exact frame id (fun s => by cases s <;> rfl) fun _ => rfl
  | recv pc queue =>
    rw [pc] at frame
    exact frame (fun hq => by rw [queue] at hq; cases hq) (fun s => by cases s <;> rfl)
      fun _ => rfl
  | recvClosed pc queue closed =>
    rw [pc] at hc
    refine ⟨queue, fun s => ?_⟩
    obtain ⟨ho, hk⟩ := hc.2 s
    have htx : r.output.chunks.tx s = false := by
      simp only [ChunkChan.closed, Bool.and_eq_true, Bool.not_eq_true'] at closed
      cases s
      · exact closed.1.2
      · exact closed.2
    refine ⟨by unfold InOrder; rw [hreads]; exact ho, hk, htx, ?_⟩
    rcases hk htx with hdone | ⟨-, hp⟩
    · -- the read that ended the drain thread is already among the labels
      obtain ⟨-, hsofar⟩ := ho
      unfold ReadSoFar at hsofar
      rw [hdone] at hsofar
      obtain ⟨last, hlast, hr⟩ := hsofar
      have hmem : .drain i s (.read last) ∈ tr := mem_readsOf.mp (by rw [hr]; simp)
      exact .inr ⟨last, hlast,
        (List.singleton_sublist.mpr hmem).append (List.Sublist.refl [Label.main i .recvClosed])⟩
    · exact .inl hp
  | @joinWait res pc =>
    obtain ⟨hans, hres⟩ := ha.main res (by rw [pc]; rfl)
    rw [pc] at hc
    cases res with
    | error e =>
      obtain ⟨e', rfl⟩ := hres
      trivial
    | ok code =>
      have hst : (r.afterWait c (.ok code)).main.stage = .settled := by
        simp only [Run.afterWait]
        split <;> rfl
      rw [hst]
      refine ⟨hc.1, fun s => ?_⟩
      obtain ⟨ho, -, -, he⟩ := hc.2 s
      refine ⟨by unfold InOrder; rw [hreads]; exact ho, ?_, ?_⟩
      · cases s
        · exact hres.2.2.1
        · exact hres.2.2.2
      · rcases he with hp | he
        · rw [hp] at hans; cases hans
        · exact he.mono hsub
  | callWait pc | waitReturned pc =>
    have := hl.path false (by rw [pc]; rfl)
    rw [hcap] at this
    cases this
  | exitedReturns pc =>
    rw [pc] at frame
    simp only [MainPc.stage, Outcome.stage, isVerdict_runResult]
    exact frame id (fun _ => rfl) fun _ => rfl
  | @dropLocals o pc =>
    rw [pc] at frame
    simp only
    split <;> refine frame id (fun s => by cases s <;> rfl) fun h => ?_
    all_goals rcases o.stage_eq with ho | ho <;> rw [MainPc.stage, ho] at h <;> cases h

/-- A label of `wait` records no read. -/
theorem readsOf_wait [DecidableEq ι] (s : Stream) (a : WaitAct) :
    readsOf i s (tr ++ [.wait i a]) = readsOf i s tr := by
  simp [readsOf_concat, Label.readOf?]

theorem SenderKept.tx_of_not_panicked {s : Stream} (hk : SenderKept s r)
    (hdone : (r.output.drain s).pc ≠ .done) (hpan : r.waiter.pc ≠ .panicked) :
    r.output.chunks.tx s = true := by
  by_contra htx
  rcases hk (Bool.eq_false_iff.mpr htx) with hd | ⟨-, hp⟩
  · exact hdone hd
  · exact hpan hp

/-- A drain thread that has just been started has read nothing. -/
theorem InOrder.start [DecidableEq ι] {s : Stream} (h : InOrder i s tr r)
    (hidle : (r.output.drain s).pc = .idle) (hreads : readsOf i s tr' = readsOf i s tr)
    (hsent : sentOf s r' = sentOf s r) (hd : r'.output.drain s = ⟨.reading, 0⟩) :
    InOrder i s tr' r' := by
  obtain ⟨hn, hr⟩ := h
  unfold ReadSoFar at hr
  rw [hidle] at hr
  unfold InOrder
  rw [hsent, hreads, hd, hr.2]
  exact ⟨hr.2 ▸ hn, hr.1, rfl⟩

/-- While the drain thread of `s` is at work or about to start, nothing but pumping can
be the stage. -/
theorem CaptureAt.pumping [DecidableEq ι] {s : Stream} (hc : CaptureAt i tr r r.main.stage)
    (ha : Answered env r) (hpc : r.waiter.pc ≠ .idle) (hd : (r.output.drain s).pc ≠ .done)
    (hpan : (r.output.drain s).pc = .idle → r.waiter.pc ≠ .panicked) :
    r.main.stage = .pumping ∨ r.main.stage = .abandoned := by
  cases hst : r.main.stage with
  | before =>
    exact absurd (by rw [ha.before (MainPc.beforeWait_of_stage hst)]) hpc
  | pumping => exact .inl rfl
  | pumped =>
    rw [hst] at hc
    obtain ⟨-, hk, htx, -⟩ := hc.2 s
    rcases hk htx with h | ⟨hi, h⟩
    · exact absurd h hd
    · exact absurd h (hpan hi)
  | settled =>
    rw [hst] at hc
    exact absurd (hc.2 s).2.1 hd
  | abandoned => exact .inr rfl

/-- `wait` keeps the invariant: it starts the drain threads while the pump loop runs. -/
theorem WaitMove.captureAt [DecidableEq ι] {a : WaitAct} {t : Tree} {o : Output} {x : Waiter}
    (h : WaitMove env c.captureOutput r.tree r.output r.waiter a t o x) (ha : Answered env r)
    (hc : CaptureAt i tr r r.main.stage) :
    CaptureAt i (tr ++ [.wait i a]) { r with tree := t, output := o, waiter := x }
      r.main.stage := by
  have hreads : ∀ s, readsOf i s (tr ++ [.wait i a]) = readsOf i s tr := fun s => readsOf_wait s a
  have horder : ∀ s, InOrder i s tr r → (o.drain s = r.output.drain s) →
      (o.chunks.queue = r.output.chunks.queue) →
      InOrder i s (tr ++ [.wait i a]) { r with tree := t, output := o, waiter := x } := by
    intro s ho hd hq
    unfold InOrder sentOf
    rw [hreads, hd, hq]
    exact ho
  have hidle : r.waiter.pc ≠ .idle := h.pc_ne_idle
  cases h with
  | startOut pc =>
    have hi := ha.drain_idle (.inr pc)
    rcases hc.pumping ha hidle (s := .stdout) (by simp [hi]) (by simp [pc]) with hst | hst
    · rw [hst] at hc ⊢
      refine ⟨hc.1, fun s => ⟨?_, fun htx => ?_⟩⟩
      · cases s with
        | stdout => exact (hc.2 .stdout).1.start (hi .stdout) (hreads _) rfl rfl
        | stderr => exact horder _ (hc.2 _).1 rfl rfl
      · have := (hc.2 s).2.tx_of_not_panicked (by simp [hi]) (by simp [pc])
        exact absurd htx (by cases s <;> simpa [ChunkChan.tx] using this)
    · rw [hst]; trivial
  | startOutFails pc =>
    have hi := ha.drain_idle (.inr pc)
    rcases hc.pumping ha hidle (s := .stdout) (by simp [hi]) (by simp [pc]) with hst | hst
    · rw [hst] at hc ⊢
      refine ⟨hc.1, fun s => ⟨horder s (hc.2 s).1 (by simp) rfl, fun _ => .inr ⟨?_, rfl⟩⟩⟩
      cases s
      · exact hi .stdout
      · exact hi .stderr
    · rw [hst]; trivial
  | startErr pc =>
    have hi : r.output.stderr.pc = .idle := by have := ha.wait; rw [pc] at this; exact this
    rcases hc.pumping ha hidle (s := .stderr) (by simp [Output.drain, hi]) (by simp [pc])
      with hst | hst
    · rw [hst] at hc ⊢
      refine ⟨hc.1, fun s => ?_⟩
      obtain ⟨ho, hk⟩ := hc.2 s
      cases s with
      | stdout =>
        refine ⟨horder _ ho rfl rfl, fun htx => ?_⟩
        rcases hk htx with hd | ⟨-, hp⟩
        · exact .inl hd
        · rw [pc] at hp; cases hp
      | stderr =>
        refine ⟨ho.start hi (hreads _) rfl rfl, fun htx => ?_⟩
        have := hk.tx_of_not_panicked (by simp [Output.drain, hi]) (by simp [pc])
        exact absurd htx (by simpa [ChunkChan.tx] using this)
    · rw [hst]; trivial
  | startErrFails pc =>
    have hi : r.output.stderr.pc = .idle := by have := ha.wait; rw [pc] at this; exact this
    rcases hc.pumping ha hidle (s := .stderr) (by simp [Output.drain, hi]) (by simp [pc])
      with hst | hst
    · rw [hst] at hc ⊢
      refine ⟨hc.1, fun s => ?_⟩
      obtain ⟨ho, hk⟩ := hc.2 s
      refine ⟨horder s ho (by simp) rfl, fun htx => ?_⟩
      cases s with
      | stdout =>
        rcases hk htx with hd | ⟨-, hp⟩
        · exact .inl hd
        · rw [pc] at hp; cases hp
      | stderr => exact .inr ⟨hi, rfl⟩
    · rw [hst]; trivial
  | childWait pc | childWaitFails pc | killTree pc | joinOut pc | joinErr pc | send pc | exit pc =>
    exact hc.frame (List.sublist_append_left _ _) hreads (fun _ => rfl) (fun _ => rfl) id
      (fun _ => rfl) (fun _ => rfl) fun hp => by rw [pc] at hp; cases hp

theorem Numbered.concat {chunks : List (ℕ × List UInt8)} {bs : List UInt8} (h : Numbered chunks)
    (hpos : 1 ≤ bs.length) (hle : bs.length ≤ bufSize) :
    Numbered (chunks ++ [(chunks.length, bs)]) := by
  refine ⟨?_, fun p hp => ?_⟩
  · rw [List.map_append, h.seqs, List.length_append, List.length_singleton, List.range_succ]
    rfl
  · rcases List.mem_append.mp hp with hp | hp
    · exact h.sizes p hp
    · obtain rfl := List.mem_singleton.mp hp
      exact ⟨hpos, hle⟩

theorem chunkOf?_makeMsg (s s' : Stream) (n : ℕ) (bs : List UInt8) :
    Event.chunkOf? s (s'.makeMsg n bs).event = if s' = s then some (n, bs) else none := by
  cases s <;> cases s' <;> rfl

theorem ChunkChan.tx_dropTx_ne (ch : ChunkChan) {s s' : Stream} (h : s' ≠ s) :
    (ch.dropTx s).tx s' = ch.tx s' := by
  cases s <;> cases s' <;> first | rfl | exact absurd rfl h

@[simp] theorem ChunkChan.queue_dropTx (ch : ChunkChan) (s : Stream) :
    (ch.dropTx s).queue = ch.queue := by
  cases s <;> rfl

@[simp] theorem ChunkChan.rx_dropTx (ch : ChunkChan) (s : Stream) : (ch.dropTx s).rx = ch.rx := by
  cases s <;> rfl

@[simp] theorem Output.chunks_setDrain (o : Output) (s : Stream) (d : Drain) :
    (o.setDrain s d).chunks = o.chunks := by
  cases s <;> rfl

@[simp] theorem Output.chunks_endDrain (o : Output) (s : Stream) :
    (o.endDrain s).chunks = o.chunks.dropTx s := by
  cases s <;> rfl

@[simp] theorem Output.drain_endDrain (o : Output) (s : Stream) :
    (o.endDrain s).drain s = { o.drain s with pc := .done } := by
  cases s <;> rfl

/-- With the receiver alive a message joins the queue. -/
theorem ChunkChan.send_of_rx {ch : ChunkChan} (h : ch.rx = true) (m : ChunkMsg) :
    ch.send m = { ch with queue := ch.queue ++ [m] } := by
  simp [ChunkChan.send, h]

/-- What a drain thread leaves alone: the receiver, and everything of the other stream. -/
theorem DrainMove.frame {capture : Bool} {s s' : Stream} {t t' : Tree} {o o' : Output}
    {a : DrainAct} (h : DrainMove capture s t o a t' o') (hrx : o.chunks.rx = true) (hne : s' ≠ s) :
    o'.chunks.tx s' = o.chunks.tx s' ∧
      o'.chunks.queue.filterMap (fun m => Event.chunkOf? s' m.event) =
        o.chunks.queue.filterMap (fun m => Event.chunkOf? s' m.event) := by
  cases h with
  | readBytes => simp
  | readEof | readError => simp [ChunkChan.tx_dropTx_ne _ hne]
  | readInterrupted =>
    split
    · simp [ChunkChan.tx_dropTx_ne _ hne]
    · exact ⟨rfl, rfl⟩
  | send =>
    rw [ChunkChan.send_of_rx hrx]
    refine ⟨by cases s' <;> rfl, ?_⟩
    simp [List.filterMap_append, chunkOf?_makeMsg, hne.symm]

theorem DrainMove.rx_eq {capture : Bool} {s : Stream} {t t' : Tree} {o o' : Output}
    {a : DrainAct} (h : DrainMove capture s t o a t' o') : o'.chunks.rx = o.chunks.rx := by
  cases h with
  | readBytes | readEof | readError => simp
  | readInterrupted => split <;> simp
  | send => simp only [ChunkChan.send]; split <;> rfl

/-- The end of a drain thread: it records the read that ended it and drops its sender. -/
theorem inOrder_endDrain [DecidableEq ι] {s : Stream} {x : ReadResult} {t : Tree}
    (ho : InOrder i s tr r) (pc : (r.output.drain s).pc = .reading) (hx : x.isBytes = false) :
    InOrder i s (tr ++ [.drain i s (.read x)])
      { r with tree := t, output := r.output.endDrain s } := by
  obtain ⟨hn, hr⟩ := ho
  simp only [ReadSoFar, pc] at hr
  have hsent : sentOf s { r with tree := t, output := r.output.endDrain s } = sentOf s r := by
    simp [sentOf]
  unfold InOrder ReadSoFar
  rw [hsent, readsOf_concat, hr.1]
  simp only [Output.drain_endDrain]
  exact ⟨hn, x, hx, by simp [Label.readOf?]⟩

/-- A drain thread keeps its own stream in order. -/
theorem DrainMove.inOrder [DecidableEq ι] {s : Stream} {a : DrainAct} {t : Tree} {o : Output}
    (h : DrainMove true s r.tree r.output a t o) (hrx : r.output.chunks.rx = true)
    (ho : InOrder i s tr r) (hk : SenderKept s r) :
    InOrder i s (tr ++ [.drain i s a]) { r with tree := t, output := o } ∧
      SenderKept s { r with tree := t, output := o } := by
  have hworking : (r.output.drain s).pc ≠ .done ∧ (r.output.drain s).pc ≠ .idle :=
    ⟨h.pc_ne_done, h.pc_ne_idle⟩
  have htx : r.output.chunks.tx s = true := by
    by_contra htx
    rcases hk (Bool.eq_false_iff.mpr htx) with hd | ⟨hi, -⟩
    · exact hworking.1 hd
    · exact hworking.2 hi
  cases h with
  | @readBytes bs pc pos le =>
    obtain ⟨hn, hr⟩ := ho
    simp only [ReadSoFar, pc] at hr
    refine ⟨?_, fun h => ?_⟩
    · have hsent : ∀ d t, sentOf s { r with tree := t, output := r.output.setDrain s d } =
          sentOf s r := by simp [sentOf]
      unfold InOrder ReadSoFar
      rw [hsent, readsOf_concat, hr.1]
      simp only [Output.drain_setDrain_self, if_true]
      exact ⟨hn, by simp [Label.readOf?], hr.2, pos, le⟩
    · simp only [Output.chunks_setDrain, htx] at h
      cases h
  | readEof pc => exact ⟨inOrder_endDrain ho pc rfl, fun _ => .inl (by simp)⟩
  | readError pc => exact ⟨inOrder_endDrain ho pc rfl, fun _ => .inl (by simp)⟩
  | readInterrupted pc => exact ⟨inOrder_endDrain ho pc rfl, fun _ => .inl (by simp)⟩
  | @send bs pc =>
    obtain ⟨hn, hr⟩ := ho
    simp only [ReadSoFar, pc] at hr
    obtain ⟨hreads, hseq, hpos, hle⟩ := hr
    rw [ChunkChan.send_of_rx hrx]
    refine ⟨?_, fun h => ?_⟩
    · have hsent : ∀ d t, sentOf s { r with
          tree := t
          output := { r.output.setDrain s d with
            chunks := { r.output.chunks with
              queue := r.output.chunks.queue ++ [s.makeMsg (r.output.drain s).seq bs] } } } =
          sentOf s r ++ [((sentOf s r).length, bs)] := by
        intro d t
        rw [← hseq]
        simp [sentOf, chunksOf, chunkOf?_makeMsg]
      unfold InOrder ReadSoFar
      rw [hsent, readsOf_concat, hreads, hseq]
      simp only [Output.drain_with_chunks, Output.drain_setDrain_self]
      exact ⟨hn.concat hpos hle, by simp [Label.readOf?], by simp⟩
    · have htx' : r.output.chunks.tx s = false := by cases s <;> exact h
      rw [htx] at htx'
      cases htx'

/-- A drain thread keeps the invariant. -/
theorem DrainMove.captureAt [DecidableEq ι] {s : Stream} {a : DrainAct} {t : Tree} {o : Output}
    (h : DrainMove c.captureOutput s r.tree r.output a t o) (hcap : c.captureOutput = true)
    (ha : Answered env r) (hc : CaptureAt i tr r r.main.stage) :
    CaptureAt i (tr ++ [.drain i s a]) { r with tree := t, output := o } r.main.stage := by
  have hpc : r.waiter.pc ≠ .idle := fun hp => h.pc_ne_idle (ha.drain_idle (.inl hp) s)
  rcases hc.pumping ha hpc h.pc_ne_done (fun hi => absurd hi h.pc_ne_idle) with hst | hst
  · rw [hst] at hc ⊢
    refine ⟨h.rx_eq.trans hc.1, fun s' => ?_⟩
    by_cases hs : s' = s
    · subst hs
      exact DrainMove.inOrder (hcap ▸ h) hc.1 (hc.2 s').1 (hc.2 s').2
    · obtain ⟨htx, hq⟩ := h.frame hc.1 hs
      have hsent : sentOf s' { r with tree := t, output := o } = sentOf s' r := by
        simpa [sentOf, chunksOf, List.filterMap_map, Function.comp_def] using hq
      have hreads : readsOf i s' (tr ++ [.drain i s a]) = readsOf i s' tr := by
        rw [readsOf_concat]
        cases a <;> simp [Label.readOf?, Ne.symm hs]
      unfold InOrder SenderKept
      rw [hsent, hreads, htx, h.drain_ne hs]
      exact hc.2 s'
  · rw [hst]
    trivial

theorem captureAt_move [DecidableEq ι] (h : RunMove env c i hd r l r')
    (hcap : c.captureOutput = true) (hl : Lifecycle c r) (ha : Answered env r)
    (hc : CaptureAt i tr r r.main.stage) : CaptureAt i (tr ++ [l]) r' r'.main.stage := by
  have hsub : tr.Sublist (tr ++ [l]) := List.sublist_append_left _ _
  cases h with
  | main h => exact h.captureAt hcap hl ha hc
  | monitor h =>
    rw [h.main_eq]
    refine hc.frame hsub (by simp [readsOf_concat, Label.readOf?]) ?_ ?_ ?_ ?_ ?_ ?_ <;> cases h <;>
      first | exact fun _ => rfl | exact id
  | wait h => exact h.captureAt ha hc
  | drain h => exact h.captureAt hcap ha hc
  | proc | cancelKill =>
    exact hc.frame hsub (by simp [readsOf_concat, Label.readOf?]) (fun _ => rfl) (fun _ => rfl) id
      (fun _ => rfl) (fun _ => rfl) id
  | other hl =>
    refine hc.frame hsub (fun s => ?_) (fun _ => rfl) (fun _ => rfl) id (fun _ => rfl)
      (fun _ => rfl) id
    rw [readsOf_concat]
    cases l with
    | drain j s' a =>
      have hj : j ≠ i := by simpa [Label.touches] using hl
      cases a <;> simp [Label.readOf?, hj]
    | _ => simp [Label.readOf?]

end Moves

/-! ### Whole runs -/

section Runs

variable [DecidableEq ι] {env : Env} {cfg : ι → RunConfig} {tr : List (Label ι)} {w : World ι}

/-- The invariant holds of every captured run in every reachable world. -/
theorem captureAt_of_reaches (h : Reaches env cfg tr w) {i : ι}
    (hcap : (cfg i).captureOutput = true) : CaptureAt i tr (w.runs i) (w.runs i).main.stage := by
  refine Lts.exec_invariant (P := fun tr w => CaptureAt i tr (w.runs i) (w.runs i).main.stage)
    ?_ ?_ h
  · exact fun s => ⟨rfl, rfl⟩
  · intro tr w l w' hw hc hstep
    exact captureAt_move (runMove_of_step hstep i) hcap (lifecycle_of_reaches hw i)
      (answered_of_reaches hw i) hc

theorem bytesRead_append_last (chunks : List (ℕ × List UInt8)) {last : ReadResult}
    (hlast : last.isBytes = false) :
    bytesRead (chunks.map (fun p => .bytes p.2) ++ [last]) = (chunks.map Prod.snd).flatten := by
  induction chunks with
  | nil => cases last <;> first | rfl | cases hlast
  | cons p chunks ih => simp [bytesRead, ih]

/-- Chunks are a shuffle of those of stdout and those of stderr. -/
theorem interleaves_chunksOf {es : List Event} (h : ∀ e ∈ es, e.isChunk = true) :
    Lts.Interleaves ((chunksOf .stdout es).map fun p => .stdoutChunk p.1 p.2)
      ((chunksOf .stderr es).map fun p => .stderrChunk p.1 p.2) es := by
  induction es with
  | nil => exact .nil
  | cons e es ih =>
    have ih := ih fun e he => h e (List.mem_cons_of_mem _ he)
    cases e with
    | stdoutChunk seq bs => exact ih.left
    | stderrChunk seq bs => exact ih.right
    | started pid => exact absurd (h _ List.mem_cons_self) (by simp [Event.isChunk])
    | exited code reason => exact absurd (h _ List.mem_cons_self) (by simp [Event.isChunk])

/-- A run that emits `Exited` has emitted `Started` first and only chunks in between. -/
theorem HasShape.of_isVerdict {c : RunConfig} {root : Root} {es : List Event}
    {res : Except AerError Unit} {k : ShapeKind} (h : HasShape c root es res k)
    (hres : isVerdict res = true) : ∃ pid chunks code reason, ChunksOnly c chunks ∧
      es = .started pid :: (chunks ++ [.exited code reason]) := by
  cases k with
  | natural =>
    obtain ⟨pid, chunks, status, hc, -, he, -⟩ := h
    exact ⟨pid, chunks, _, _, hc, he⟩
  | timedOut | cancelled =>
    obtain ⟨-, pid, chunks, hc, he, -⟩ := h
    exact ⟨pid, chunks, _, _, hc, he⟩
  | spawnFailed =>
    obtain ⟨-, e, rfl⟩ := h
    cases hres
  | waitFailed =>
    obtain ⟨-, -, e, -, -, rfl⟩ := h
    cases hres

/-- **Captured output is neither lost, duplicated, reordered nor cross-wired.**  The
chunks of each stream are numbered from zero and carry exactly the bytes its reads
returned; the pump loop ends after the read that ended each drain thread; and the
delivered events are a shuffle of the two streams between `Started` and `Exited`. -/
theorem captured_output_is_exact (h : Reaches env cfg tr w) {i : ι}
    (hcap : (cfg i).captureOutput = true) {res : Except AerError Unit}
    (hret : (w.runs i).main = .finished (.ret res))
    (hres : res = .ok () ∨ res = .error .timedOut ∨ res = .error .cancelled) :
    (∀ s, Delivered (readsOf i s tr) (chunksOf s (w.runs i).events) ∧ EndedBeforePump i s tr) ∧
      ∃ pid chunks code reason,
        (w.runs i).events = .started pid :: (chunks ++ [.exited code reason]) ∧
        Lts.Interleaves
          ((chunksOf .stdout (w.runs i).events).map fun p => .stdoutChunk p.1 p.2)
          ((chunksOf .stderr (w.runs i).events).map fun p => .stderrChunk p.1 p.2) chunks := by
  have hverdict : isVerdict res = true := by rcases hres with rfl | rfl | rfl <;> rfl
  have hc := captureAt_of_reaches h hcap
  simp only [hret, MainPc.stage, Outcome.stage, hverdict, if_true] at hc
  refine ⟨fun s => ?_, ?_⟩
  · obtain ⟨⟨hn, hr⟩, hdone, hend⟩ := hc.2 s
    have hsent : sentOf s (w.runs i) = chunksOf s (w.runs i).events := by simp [sentOf, hc.1]
    rw [hsent] at hn hr
    simp only [ReadSoFar, hdone] at hr
    obtain ⟨last, hlast, hr⟩ := hr
    exact ⟨⟨hn, by rw [hr, bytesRead_append_last _ hlast]⟩, hend⟩
  · obtain ⟨k, hk⟩ := hasShape_of_returned h hret
    obtain ⟨pid, chunks, code, reason, hchunks, he⟩ := hk.of_isVerdict hverdict
    refine ⟨pid, chunks, code, reason, he, ?_⟩
    have hof : ∀ s, chunksOf s (w.runs i).events = chunksOf s chunks := by
      intro s
      simp [he, chunksOf, List.filterMap_append]
    rw [hof, hof]
    exact interleaves_chunksOf hchunks.1

end Runs

/-- A captured run that reads three bytes from stdout in two pieces and one from stderr. -/
def capturedRun : List (Label Unit) :=
  [.main () (.spawn (.command (.ok 7))), .main () .started, .main () .startedReturns,
    .main () (.startMonitor true), .main () .openChannel, .main () .dropTx,
    .main () (.startWait true), .wait () (.startOut true), .wait () (.startErr true),
    .proc () (.write .root .stdout [1, 2, 3]), .drain () .stdout (.read (.bytes [1, 2])),
    .proc () (.write .root .stderr [9]), .drain () .stderr (.read (.bytes [9])),
    .drain () .stderr .send, .drain () .stdout .send, .main () .recv,
    .proc () (.rootExit (some 0)), .wait () (.childWait (.ok ())), .wait () (.killTree .absent),
    .drain () .stdout (.read (.bytes [3])), .drain () .stdout .send,
    .drain () .stdout (.read .eof), .drain () .stderr (.read .eof), .wait () .joinOut,
    .wait () .joinErr, .wait () .send, .main () .chunkReturns, .main () .recv,
    .main () .chunkReturns, .main () .recv, .main () .chunkReturns, .main () .recvClosed,
    .main () .recvWait, .wait () .exit, .main () .joinWait, .main () .stopMonitor,
    .main () (.loadTimedOut false), .main () (.loadKillFired false), .main () .exited,
    .main () .exitedReturns, .main () .dropLocals]

/-- Its events carry what was read. -/
theorem capturedRun_output_is_exact :
    ∃ w, Reaches Env.posix (fun _ => ⟨none, true, false⟩) capturedRun w ∧
      (w.runs ()).events = [.started 7, .stderrChunk 0 [9], .stdoutChunk 0 [1, 2],
        .stdoutChunk 1 [3], .exited 0 .naturalExit] ∧
      ∀ s, Delivered (readsOf () s capturedRun) (chunksOf s (w.runs ()).events) := by
  obtain ⟨w, hw, hret, hev⟩ : ∃ w, Reaches Env.posix (fun _ => ⟨none, true, false⟩) capturedRun w ∧
      (w.runs ()).main = .finished (.ret (.ok ())) ∧
      (w.runs ()).events = [.started 7, .stderrChunk 0 [9], .stdoutChunk 0 [1, 2],
        .stdoutChunk 1 [3], .exited 0 .naturalExit] := Lts.exists_exec_of_any (by decide +kernel)
  exact ⟨w, hw, hev, fun s => ((captured_output_is_exact hw rfl hret (.inl rfl)).1 s).1⟩

end AerCore
