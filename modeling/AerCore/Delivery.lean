import AerCore.Pipeline

/-!
# From the pipe to the callback

What a drain thread takes out of a pipe is in its hands, then in the chunk channel, then with
the callback.  The bytes taken out of a stream are at every moment those that have left its
drain thread followed by the piece in its hands, as long as somebody receives them; and since
both streams share one channel, their chunks come in the order in which they were sent.

Together with the account of the pipes this says what the callback sees in terms of what the
processes have written, without a word on reads, threads and channels.

## Main definitions

* `deliveredFrom` — the bytes the callback has seen.
* `arrivals` — the streams of the chunks, in the order in which they were sent.
* `Forwarded`, `Flows` — the invariant.
* `Flushed` — nothing is on its way.

## Main results

* `flows_of_reaches` — nothing is lost between a pipe and the callback.
* `output_is_what_was_written` — **the callback sees what the processes wrote**.
* `chunks_keep_arrival_order` — **the chunks of both streams come in the order of their
  arrival**.
* `output_is_delivered_live` — **what has been written is delivered without any help of the
  processes**.
-/

namespace AerCore

variable {ι : Type*}

/-! ### What leaves the drain threads -/

/-- The stream a chunk comes from. -/
def Event.stream? : Event → Option Stream
  | .stdoutChunk _ _ => some .stdout
  | .stderrChunk _ _ => some .stderr
  | .started _ | .exited _ _ => none

/-- The stream on which run `i` sends a chunk with the label. -/
def Label.sendOf? [DecidableEq ι] (i : ι) : Label ι → Option Stream
  | .drain j s .send => if j = i then some s else none
  | _ => none

/-- The streams of the chunks of run `i`, in the order in which they were sent. -/
def arrivals [DecidableEq ι] (i : ι) (tr : List (Label ι)) : List Stream :=
  tr.filterMap (Label.sendOf? i)

/-- The bytes of stream `s` that the callback has seen. -/
def deliveredFrom (s : Stream) (es : List Event) : List UInt8 :=
  ((chunksOf s es).map Prod.snd).flatten

/-- What has left the drain threads: delivered, then queued. -/
def Run.outgoing (r : Run) : List Event := r.events ++ r.output.chunks.queue.map ChunkMsg.event

/-- The piece a drain thread has read and not sent yet. -/
def Drain.hand (d : Drain) : List UInt8 :=
  match d.pc with
  | .sending bs => bs
  | .idle | .reading | .done => []

/-- Every byte that was taken out of a pipe has been sent or is in the hands of the drain
thread, and the chunks left in the order of the sends. -/
structure Forwarded [DecidableEq ι] (i : ι) (tr : List (Label ι)) (r : Run) : Prop where
  /-- Nothing is lost between the pipe and the channel. -/
  bytes : ∀ s, deliveredFrom s r.outgoing ++ (r.output.drain s).hand = takenFrom i s tr
  /-- Both streams share one channel. -/
  order : r.outgoing.filterMap Event.stream? = arrivals i tr

/-- What has left the drain threads is the beginning of what was taken and sent. -/
structure Begun [DecidableEq ι] (i : ι) (tr : List (Label ι)) (r : Run) : Prop where
  /-- The bytes of each stream. -/
  bytes : ∀ s, deliveredFrom s r.outgoing <+: takenFrom i s tr
  /-- The chunks of both. -/
  order : r.outgoing.filterMap Event.stream? <+: arrivals i tr

/-- The run thread is on its way from the channel to the verdict. -/
def Stage.live : Stage → Bool
  | .pumping | .pumped | .settled => true
  | .before | .abandoned => false

/-- Somebody receives what is sent, or everything has been received. -/
def Run.receives (r : Run) : Bool := r.output.chunks.rx || r.main.stage.live

theorem Forwarded.begun [DecidableEq ι] {i : ι} {tr : List (Label ι)} {r : Run}
    (h : Forwarded i tr r) : Begun i tr r where
  bytes s := h.bytes s ▸ List.prefix_append _ _
  order := h.order ▸ List.prefix_refl _

section Forwarding

variable {env : Env} {c : RunConfig} {i : ι} {hd hd' : CancelHandle ι} {r r' : Run}
  {tr : List (Label ι)} {l : Label ι} {t : Tree} {o : Output}

theorem arrivals_concat [DecidableEq ι] (i : ι) (tr : List (Label ι)) (l : Label ι) :
    arrivals i (tr ++ [l]) = arrivals i tr ++ (l.sendOf? i).toList := by
  simp only [arrivals, List.filterMap_append]
  cases h : l.sendOf? i <;> simp [h]

/-- Where no chunk has left a drain thread there is none to pick. -/
theorem filterMap_outgoing_eq_nil {β : Type*} {f : Event → Option β}
    (hf : ∀ e, e.isChunk = false → f e = none) (h : ∀ s, sentOf s r = []) :
    r.outgoing.filterMap f = [] := by
  apply List.filterMap_eq_nil_iff.mpr
  intro e he
  cases e with
  | stdoutChunk seq bs =>
    have hnone := List.filterMap_eq_nil_iff.mp (h .stdout) _ he
    cases hnone
  | stderrChunk seq bs =>
    have hnone := List.filterMap_eq_nil_iff.mp (h .stderr) _ he
    cases hnone
  | started | exited => exact hf _ rfl

/-- The run thread moves chunks from the channel to the events and drops none. -/
theorem MainMove.outgoing_eq {β : Type*} {f : Event → Option β} {a : MainAct}
    (hf : ∀ e, e.isChunk = false → f e = none) (h : MainMove env c i hd r a hd' r')
    (hopen : r.main = .openChannel → ∀ s, sentOf s r = [])
    (hexit : r.main.stage = .settled → r.output.chunks.queue = []) :
    r'.outgoing.filterMap f = r.outgoing.filterMap f := by
  cases h with
  | started => simp [Run.outgoing, List.filterMap_append, hf (.started _) rfl]
  | openChannel pc =>
    have hnil := filterMap_outgoing_eq_nil hf (hopen pc)
    rw [hnil]
    rw [Run.outgoing, List.filterMap_append, List.append_eq_nil_iff] at hnil
    simpa [Run.outgoing] using hnil.1
  | recv _ queue => simp [Run.outgoing, queue]
  | exited pc =>
    have hq := hexit (by rw [pc]; rfl)
    simp [Run.outgoing, hq, List.filterMap_append, hf (.exited _ _) rfl]
  | @joinWait res | @waitReturned res => cases res <;> rfl
  | _ => rfl

/-- Only the creation of the channel makes a receiver. -/
theorem MainMove.rx {a : MainAct} (h : MainMove env c i hd r a hd' r')
    (hpc : r.main ≠ .openChannel) (hrx : r'.output.chunks.rx = true) :
    r.output.chunks.rx = true := by
  cases h with
  | openChannel pc => exact absurd pc hpc
  | dropLocals => cases hrx
  | startWaitFails => simpa using hrx
  | @joinWait res | @waitReturned res => cases res <;> exact hrx
  | _ => exact hrx

/-- The way from the channel to the verdict begins with the creation of the channel. -/
theorem MainMove.live {a : MainAct} (h : MainMove env c i hd r a hd' r') (hl : Lifecycle c r)
    (hcap : c.captureOutput = true) (hpc : r.main ≠ .openChannel)
    (hlive : r'.main.stage.live = true) : r.main.stage.live = true := by
  cases h with
  | openChannel pc => exact absurd pc hpc
  | startedReturns pc | loadCancelled pc | loadFired pc =>
    simp only at hlive
    split at hlive <;> cases hlive
  | startMonitor pc | noMonitor pc =>
    simp only [RunConfig.afterMonitor] at hlive
    split at hlive <;> cases hlive
  | startedRefused pc he =>
    simp [MainPc.stage, Outcome.stage, isVerdict_of_transition he, Stage.live] at hlive
  | waitReturned pc =>
    have := hl.path false (by rw [pc]; rfl)
    rw [hcap] at this
    cases this
  | dropLocals pc =>
    rw [pc]
    simp only at hlive
    split at hlive <;> exact hlive
  | guardMore pc | guardDone pc | guardReap pc => rw [pc]; exact hlive
  | dropTx pc | startWait pc | recv pc | recvClosed pc | chunkReturns pc | recvWait pc
  | joinWait pc | clear pc | stopMonitor pc | loadTimedOut pc | loadKillFired pc | exited pc
  | exitedRefused pc | exitedReturns pc => rw [pc]; rfl
  | _ => cases hlive

theorem chunkOf?_of_not_chunk (s : Stream) {e : Event} (he : e.isChunk = false) :
    Event.chunkOf? s e = none := by
  cases e with
  | stdoutChunk | stderrChunk => cases he
  | started pid => exact chunkOf?_started s pid
  | exited code reason => exact chunkOf?_exited s code reason

theorem stream?_of_not_chunk {e : Event} (he : e.isChunk = false) : e.stream? = none := by
  cases e with
  | stdoutChunk | stderrChunk => cases he
  | started | exited => rfl

/-- Only a drain thread reads or sends. -/
theorem no_flow_of_not_drain [DecidableEq ι] (hl : ∀ s a, l ≠ .drain i s a) :
    (∀ s, takenFrom i s (tr ++ [l]) = takenFrom i s tr) ∧
      arrivals i (tr ++ [l]) = arrivals i tr := by
  have hread : ∀ s, l.takeOf i s = [] := by
    intro s
    cases l with
    | drain j s' a =>
      have hj : j ≠ i := fun hj => hl s' a (by rw [hj])
      cases a <;> simp [Label.takeOf, Label.readOf?, hj]
    | _ => rfl
  have hsend : l.sendOf? i = none := by
    cases l with
    | drain j s' a =>
      have hj : j ≠ i := fun hj => hl s' a (by rw [hj])
      cases a <;> simp [Label.sendOf?, hj]
    | _ => rfl
  refine ⟨fun s => ?_, ?_⟩
  · rw [takenFrom_concat, hread, List.append_nil]
  · rw [arrivals_concat, hsend, Option.toList_none, List.append_nil]

/-- **The invariant between the pipes and the callback.** -/
structure Flows [DecidableEq ι] (i : ι) (tr : List (Label ι)) (r : Run) : Prop where
  /-- What has left the drain threads is in order in any case. -/
  begun : Begun i tr r
  /-- Nothing is lost as long as somebody receives it. -/
  forwarded : r.receives = true → Forwarded i tr r

/-- What leaves the chunks where they are keeps the invariant. -/
theorem Flows.frame [DecidableEq ι] (hf : Flows i tr r) (hl : ∀ s a, l ≠ .drain i s a)
    (hout : ∀ s, chunksOf s r'.outgoing = chunksOf s r.outgoing)
    (hstream : r'.outgoing.filterMap Event.stream? = r.outgoing.filterMap Event.stream?)
    (hhand : ∀ s, (r'.output.drain s).hand = (r.output.drain s).hand)
    (hrec : r'.receives = true → r.receives = true) : Flows i (tr ++ [l]) r' := by
  have hflow : (∀ s, takenFrom i s (tr ++ [l]) = takenFrom i s tr) ∧
      arrivals i (tr ++ [l]) = arrivals i tr := no_flow_of_not_drain hl
  obtain ⟨htake, hsend⟩ := hflow
  refine ⟨⟨fun s => ?_, ?_⟩, fun hr => ⟨fun s => ?_, ?_⟩⟩
  · rw [deliveredFrom, hout, htake]
    exact hf.begun.bytes s
  · rw [hstream, hsend]
    exact hf.begun.order
  · rw [deliveredFrom, hout, hhand, htake]
    exact (hf.forwarded (hrec hr)).bytes s
  · rw [hstream, hsend]
    exact (hf.forwarded (hrec hr)).order

/-- The run thread keeps the invariant: the channel is made before anything is read. -/
theorem MainMove.flows [DecidableEq ι] {a : MainAct} (h : MainMove env c i hd r a hd' r')
    (hcap : c.captureOutput = true) (hl : Lifecycle c r) (ha : Answered env r)
    (hc : CaptureAt i tr r r.main.stage)
    (hnone : (∀ s, (r.output.drain s).pc = .idle) →
      (∀ s, takenFrom i s tr = []) ∧ arrivals i tr = [])
    (hf : Flows i tr r) : Flows i (tr ++ [Label.main i a]) r' := by
  have hopen : r.main = .openChannel → ∀ s, sentOf s r = [] := by
    intro pc s
    rw [pc] at hc
    exact (hc s).2
  have hexit : r.main.stage = .settled → r.output.chunks.queue = [] := by
    intro hst
    rw [hst] at hc
    exact hc.1
  have hout := fun s => h.outgoing_eq (fun e he => chunkOf?_of_not_chunk s he) hopen hexit
  have hstream := h.outgoing_eq (fun e he => stream?_of_not_chunk he) hopen hexit
  by_cases hpc : r.main = .openChannel
  · -- nothing has been read or sent yet
    have hidle := ha.drain_idle (.inl (by rw [ha.before (by rw [hpc]; rfl)]))
    obtain ⟨htaken, harr⟩ := hnone hidle
    have hflow : (∀ s, takenFrom i s (tr ++ [Label.main i a]) = takenFrom i s tr) ∧
        arrivals i (tr ++ [Label.main i a]) = arrivals i tr := no_flow_of_not_drain (by simp)
    obtain ⟨htake, hsend⟩ := hflow
    have hforwarded : Forwarded i (tr ++ [Label.main i a]) r' := by
      refine ⟨fun s => ?_, ?_⟩
      · rw [deliveredFrom, chunksOf, hout, filterMap_outgoing_eq_nil
          (fun e he => chunkOf?_of_not_chunk s he) (hopen hpc), h.drain_eq, htake, htaken]
        simp [Drain.hand, hidle]
      · rw [hstream, filterMap_outgoing_eq_nil (fun e he => stream?_of_not_chunk he) (hopen hpc),
          hsend, harr]
    exact ⟨hforwarded.begun, fun _ => hforwarded⟩
  · refine hf.frame (by simp) hout hstream (fun s => by rw [h.drain_eq]) fun hr => ?_
    rw [Run.receives, Bool.or_eq_true] at hr ⊢
    exact hr.imp (h.rx hpc) (h.live hl hcap hpc)

theorem Drain.hand_of_ne {d : Drain} (h : ∀ bs, d.pc ≠ .sending bs) : d.hand = [] := by
  unfold Drain.hand
  cases hpc : d.pc with
  | sending bs => exact absurd hpc (h bs)
  | _ => rfl

/-- `wait` starts the drain threads and leaves their chunks alone. -/
theorem WaitMove.flows [DecidableEq ι] {capture : Bool} {a : WaitAct} {x : Waiter}
    (h : WaitMove env capture r.tree r.output r.waiter a t o x) (ha : Answered env r)
    (hf : Flows i tr r) :
    Flows i (tr ++ [Label.wait i a]) { r with tree := t, output := o, waiter := x } := by
  have hqueue : o.chunks.queue = r.output.chunks.queue := by cases h <;> simp
  have hrx : o.chunks.rx = r.output.chunks.rx := by cases h <;> simp
  have hhand : ∀ s, (o.drain s).hand = (r.output.drain s).hand := by
    intro s
    have hw := ha.wait
    cases h with
    | startOut pc =>
      rw [pc] at hw
      cases s with
      | stdout => simp [Output.drain, Drain.hand, hw.1]
      | stderr => rfl
    | startErr pc =>
      rw [pc] at hw
      cases s with
      | stdout => rfl
      | stderr =>
        have hidle : r.output.stderr.pc = .idle := hw
        simp [Output.drain, Drain.hand, hidle]
    | _ => cases s <;> rfl
  have hout : Run.outgoing { r with tree := t, output := o, waiter := x } = r.outgoing := by
    simp [Run.outgoing, hqueue]
  refine hf.frame (by simp) (fun s => by rw [hout]) (by rw [hout]) hhand fun hr => ?_
  rw [← hr]
  simp [Run.receives, hrx]

/-- A drain thread with a receiver: what it reads it has in its hands, and what it has in its
hands it sends. -/
theorem DrainMove.forwarded [DecidableEq ι] {s : Stream} {a : DrainAct}
    (h : DrainMove true s r.tree r.output a t o) (hrx : r.output.chunks.rx = true)
    (hf : Forwarded i tr r) :
    Forwarded i (tr ++ [Label.drain i s a]) { r with tree := t, output := o } := by
  -- the other stream has no part in it
  have hother : ∀ s', s' ≠ s → Label.takeOf i s' (.drain i s a) = [] := by
    intro s' hs
    cases a <;> simp [Label.takeOf, Label.readOf?, Ne.symm hs]
  have htake : ∀ s', takenFrom i s' (tr ++ [Label.drain i s a]) =
      takenFrom i s' tr ++ Label.takeOf i s' (.drain i s a) := fun s' => takenFrom_concat i s' tr _
  have harr : arrivals i (tr ++ [Label.drain i s a]) =
      arrivals i tr ++ (Label.sendOf? i (.drain i s a)).toList := arrivals_concat i tr _
  -- a step that sends nothing, by what it takes
  have quiet : o.chunks.queue = r.output.chunks.queue →
      Label.sendOf? i (.drain i s a) = none →
      (r.output.drain s).hand ++ Label.takeOf i s (.drain i s a) = (o.drain s).hand →
      Forwarded i (tr ++ [Label.drain i s a]) { r with tree := t, output := o } := by
    intro hqueue hsend hhand
    have hout : Run.outgoing { r with tree := t, output := o } = r.outgoing := by
      simp [Run.outgoing, hqueue]
    refine ⟨fun s' => ?_, ?_⟩
    · rw [hout, htake, ← hf.bytes s', List.append_assoc]
      by_cases hs : s' = s
      · subst hs
        exact congrArg _ hhand.symm
      · rw [hother s' hs, List.append_nil]
        exact congrArg (fun d => _ ++ Drain.hand d) (h.drain_ne hs)
    · rw [hout, harr, hsend, Option.toList_none, List.append_nil]
      exact hf.order
  cases h with
  | @readBytes bs pc =>
    refine quiet (by simp) rfl ?_
    simp [Drain.hand, pc, Label.takeOf, Label.readOf?, ReadResult.payload]
  | readEof pc | readError pc | readInterrupted pc =>
    refine quiet (by simp) rfl ?_
    simp [Drain.hand, pc, Label.takeOf, Label.readOf?, ReadResult.payload]
  | @send bs pc =>
    -- the piece goes from the hands of the thread to the end of the queue
    have hout : ∀ d t', Run.outgoing { r with
        tree := t'
        output := { r.output.setDrain s d with
          chunks := r.output.chunks.send (s.makeMsg (r.output.drain s).seq bs) } } =
        r.outgoing ++ [(s.makeMsg (r.output.drain s).seq bs).event] := by
      intro d t'
      simp [Run.outgoing, ChunkChan.send_of_rx hrx]
    refine ⟨fun s' => ?_, ?_⟩
    · rw [hout, htake, ← hf.bytes s']
      by_cases hs : s' = s
      · subst hs
        simp [deliveredFrom, chunksOf, chunkOf?_makeMsg, Drain.hand, pc, Label.takeOf,
          Label.readOf?]
      · rw [hother s' hs]
        simp [deliveredFrom, chunksOf, chunkOf?_makeMsg, Ne.symm hs,
          Output.drain_setDrain_ne _ _ hs]
    · rw [hout, harr, List.filterMap_append, hf.order]
      cases s <;> simp [Label.sendOf?, Stream.makeMsg, ChunkMsg.event, Event.stream?]

/-- Without a receiver a chunk is dropped, and what was sent before is still in order. -/
theorem DrainMove.begun [DecidableEq ι] {s : Stream} {a : DrainAct}
    (h : DrainMove true s r.tree r.output a t o) (hrx : r.output.chunks.rx = false)
    (hf : Begun i tr r) :
    Begun i (tr ++ [Label.drain i s a]) { r with tree := t, output := o } := by
  have hqueue : o.chunks.queue = r.output.chunks.queue := by
    cases h with
    | send => simp [ChunkChan.send, hrx]
    | _ => simp
  have hout : Run.outgoing { r with tree := t, output := o } = r.outgoing := by
    simp [Run.outgoing, hqueue]
  refine ⟨fun s' => ?_, ?_⟩
  · rw [hout, takenFrom_concat]
    exact (hf.bytes s').trans (List.prefix_append _ _)
  · rw [hout, arrivals_concat]
    exact hf.order.trans (List.prefix_append _ _)

/-- A drain thread keeps the invariant. -/
theorem DrainMove.flows [DecidableEq ι] {s : Stream} {a : DrainAct}
    (h : DrainMove c.captureOutput s r.tree r.output a t o) (hcap : c.captureOutput = true)
    (ha : Answered env r) (hc : CaptureAt i tr r r.main.stage) (hf : Flows i tr r) :
    Flows i (tr ++ [Label.drain i s a]) { r with tree := t, output := o } := by
  have hpc : r.waiter.pc ≠ .idle := fun hp => h.pc_ne_idle (ha.drain_idle (.inl hp) s)
  have hstage := hc.pumping ha hpc h.pc_ne_done fun hi => absurd hi h.pc_ne_idle
  rw [hcap] at h
  cases hrx : r.output.chunks.rx with
  | true =>
    have hforwarded := h.forwarded hrx (hf.forwarded (by simp [Run.receives, hrx]))
    exact ⟨hforwarded.begun, fun _ => hforwarded⟩
  | false =>
    refine ⟨h.begun hrx hf.begun, fun hr => ?_⟩
    -- the pump loop keeps the receiver, so the run has been abandoned
    rcases hstage with hst | hst
    · rw [hst] at hc
      have := hc.1
      rw [hrx] at this
      cases this
    · simp [Run.receives, h.rx_eq, hrx, hst, Stage.live] at hr

/-- Every move keeps the invariant. -/
theorem flows_move [DecidableEq ι] (h : RunMove env c i hd r l r') (hcap : c.captureOutput = true)
    (hl : Lifecycle c r) (ha : Answered env r) (hc : CaptureAt i tr r r.main.stage)
    (hnone : (∀ s, (r.output.drain s).pc = .idle) →
      (∀ s, takenFrom i s tr = []) ∧ arrivals i tr = [])
    (hf : Flows i tr r) : Flows i (tr ++ [l]) r' := by
  cases h with
  | main h => exact h.flows hcap hl ha hc hnone hf
  | monitor h =>
    refine hf.frame (by simp) (fun s => ?_) ?_ (fun s => by rw [h.output_eq]) ?_ <;> cases h <;>
      first | rfl | exact id
  | wait h => exact h.flows ha hf
  | drain h => exact h.flows hcap ha hc hf
  | proc | cancelKill =>
    exact hf.frame (by simp) (fun _ => rfl) rfl (fun _ => rfl) id
  | other hl =>
    refine hf.frame (fun s a hla => ?_) (fun _ => rfl) rfl (fun _ => rfl) id
    subst hla
    simp [Label.touches] at hl

end Forwarding

/-! ### Whole runs -/

section Runs

variable [DecidableEq ι] {env : Env} {cfg : ι → RunConfig} {tr : List (Label ι)} {w : World ι}
  {i : ι}

/-- Before its drain threads are started, a run has read and sent nothing. -/
theorem nothing_taken_of_idle (h : Reaches env cfg tr w)
    (hidle : ∀ s, ((w.runs i).output.drain s).pc = .idle) :
    (∀ s, takenFrom i s tr = []) ∧ arrivals i tr = [] := by
  have hno : ∀ s a, .drain i s a ∉ tr := fun s a ha => drain_started_of_mem h ha (hidle s)
  refine ⟨fun s => ?_, ?_⟩
  · apply List.flatMap_eq_nil_iff.mpr
    intro l hl
    cases l with
    | drain j s' a =>
      have hj : j ≠ i := fun hj => hno s' a (hj ▸ hl)
      cases a <;> simp [Label.takeOf, Label.readOf?, hj]
    | _ => rfl
  · apply List.filterMap_eq_nil_iff.mpr
    intro l hl
    cases l with
    | drain j s' a =>
      have hj : j ≠ i := fun hj => hno s' a (hj ▸ hl)
      cases a <;> simp [Label.sendOf?, hj]
    | _ => rfl

/-- **Nothing is lost, duplicated or reordered between a pipe and the callback.** -/
theorem flows_of_reaches (h : Reaches env cfg tr w) (hcap : (cfg i).captureOutput = true) :
    Flows i tr (w.runs i) := by
  refine Lts.exec_invariant (P := fun tr w => Flows i tr (w.runs i)) ?_ ?_ h
  · have hnil : Forwarded i [] ((World.init ι env).runs i) := ⟨fun s => by cases s <;> rfl, rfl⟩
    exact ⟨hnil.begun, fun _ => hnil⟩
  · intro tr w l w' hw hf hstep
    exact flows_move (runMove_of_step hstep i) hcap (lifecycle_of_reaches hw i)
      (answered_of_reaches hw i) (captureAt_of_reaches hw hcap) (nothing_taken_of_idle hw) hf

/-- The read failed: the drain thread of a captured stream stops there. -/
def ReadResult.failed : ReadResult → Bool
  | .interrupted | .error _ => true
  | .bytes _ | .eof => false

theorem deliveredFrom_append (s : Stream) (es es' : List Event) :
    deliveredFrom s (es ++ es') = deliveredFrom s es ++ deliveredFrom s es' := by
  simp [deliveredFrom, chunksOf, List.filterMap_append]

/-- A run that ends with a verdict has delivered everything it has sent. -/
theorem delivered_of_verdict (h : Reaches env cfg tr w) (hcap : (cfg i).captureOutput = true)
    {res : Except AerError Unit} (hret : (w.runs i).main = .finished (.ret res))
    (hres : isVerdict res = true) :
    (w.runs i).outgoing = (w.runs i).events ∧ Forwarded i tr (w.runs i) ∧
      ∀ s, InOrder i s tr (w.runs i) ∧ ((w.runs i).output.drain s).pc = .done := by
  have hstage : (w.runs i).main.stage = .settled := by
    simp [hret, MainPc.stage, Outcome.stage, hres]
  have hc := captureAt_of_reaches h hcap
  rw [hstage] at hc
  refine ⟨by simp [Run.outgoing, hc.1], (flows_of_reaches h hcap).forwarded ?_,
    fun s => ⟨(hc.2 s).1, (hc.2 s).2.1⟩⟩
  simp [Run.receives, hstage, Stage.live]

/-- **The callback sees what the processes wrote.**  At every moment the bytes of a stream it
has seen are the beginning of those written to the stream; and a run that ends with a verdict,
no read having failed, has handed over every byte that was ever written. -/
theorem output_is_what_was_written (h : Reaches env cfg tr w)
    (hcap : (cfg i).captureOutput = true) (s : Stream) :
    deliveredFrom s (w.runs i).events <+: writtenTo i s tr ∧
      ∀ res, (w.runs i).main = .finished (.ret res) → isVerdict res = true →
        (∀ x ∈ readsOf i s tr, x.failed = false) →
        deliveredFrom s (w.runs i).events = writtenTo i s tr := by
  have hpiped := piped_of_reaches h i s
  constructor
  · have hsent : deliveredFrom s (w.runs i).events <+: deliveredFrom s (w.runs i).outgoing :=
      ⟨_, (deliveredFrom_append s _ _).symm⟩
    have htaken := (flows_of_reaches h hcap).begun.bytes s
    exact (hsent.trans htaken).trans ⟨_, hpiped.symm⟩
  · intro res hret hres hreads
    obtain ⟨hout, hforwarded, horder⟩ := delivered_of_verdict h hcap hret hres
    obtain ⟨⟨-, hread⟩, hdone⟩ := horder s
    -- the read that ended the drain thread has found the end of file
    simp only [ReadSoFar, hdone] at hread
    obtain ⟨last, hlast, hread⟩ := hread
    have heof : last = .eof := by
      have hok := hreads last (by rw [hread]; simp)
      cases last with
      | eof => rfl
      | bytes => cases hlast
      | interrupted | error => cases hok
    have hempty : (w.runs i).tree.buf s = [] := by
      apply (ended_of_reaches h (mem_readsOf.mp ?_)).1
      rw [hread, heof]
      simp
    have hbytes := hforwarded.bytes s
    rw [hout, Drain.hand_of_ne (by simp [hdone]), List.append_nil] at hbytes
    rw [hbytes, hpiped, hempty, List.append_nil]

/-- The three bytes on stdout and the one on stderr of `capturedRun`. -/
theorem capturedRun_output_is_what_was_written :
    ∃ w, Reaches Env.posix (fun _ => ⟨none, true, false⟩) capturedRun w ∧
      writtenTo () .stdout capturedRun = [1, 2, 3] ∧
      deliveredFrom .stdout (w.runs ()).events = writtenTo () .stdout capturedRun := by
  obtain ⟨w, hw, hret⟩ : ∃ w, Reaches Env.posix (fun _ => ⟨none, true, false⟩) capturedRun w ∧
      (w.runs ()).main = .finished (.ret (.ok ())) := Lts.exists_exec_of_any (by decide +kernel)
  exact ⟨w, hw, by decide, (output_is_what_was_written hw rfl .stdout).2 _ hret rfl (by decide)⟩

/-- **The chunks of both streams come in the order of their arrival**: at every moment the
streams of the chunks the callback has seen are the beginning of those of the sends, and all of
them when a run ends with a verdict. -/
theorem chunks_keep_arrival_order (h : Reaches env cfg tr w)
    (hcap : (cfg i).captureOutput = true) :
    (w.runs i).events.filterMap Event.stream? <+: arrivals i tr ∧
      ∀ res, (w.runs i).main = .finished (.ret res) → isVerdict res = true →
        (w.runs i).events.filterMap Event.stream? = arrivals i tr := by
  constructor
  · have hsent : (w.runs i).events.filterMap Event.stream? <+:
        (w.runs i).outgoing.filterMap Event.stream? := ⟨_, List.filterMap_append.symm⟩
    exact hsent.trans (flows_of_reaches h hcap).begun.order
  · intro res hret hres
    obtain ⟨hout, hforwarded, -⟩ := delivered_of_verdict h hcap hret hres
    rw [← hforwarded.order, hout]

/-- The byte on stderr of `capturedRun` is sent first and delivered first. -/
theorem capturedRun_keeps_arrival_order :
    ∃ w, Reaches Env.posix (fun _ => ⟨none, true, false⟩) capturedRun w ∧
      (w.runs ()).events.filterMap Event.stream? = [.stderr, .stdout, .stdout] := by
  obtain ⟨w, hw, hret⟩ : ∃ w, Reaches Env.posix (fun _ => ⟨none, true, false⟩) capturedRun w ∧
      (w.runs ()).main = .finished (.ret (.ok ())) := Lts.exists_exec_of_any (by decide +kernel)
  refine ⟨w, hw, ?_⟩
  rw [(chunks_keep_arrival_order hw rfl).2 _ hret rfl]
  decide

/-! ### Live delivery -/

/-- The pump loop runs, and no drain thread has left anything in its pipe. -/
structure Pumps (r : Run) : Prop where
  /-- The run thread receives, or is in the callback for a chunk. -/
  main : r.main = .pump ∨ r.main = .inChunk
  /-- The drain threads have been started. -/
  started : ∀ s, (r.output.drain s).pc ≠ .idle
  /-- They have not stopped early. -/
  done : ∀ s, (r.output.drain s).pc = .done → r.tree.buf s = []

/-- Nothing is on its way. -/
structure Flushed (r : Run) : Prop where
  /-- The run thread waits for the next chunk. -/
  main : r.main = .pump
  /-- The channel is empty. -/
  queue : r.output.chunks.queue = []
  /-- The drain threads hold nothing. -/
  hand : ∀ s, (r.output.drain s).hand = []
  /-- The pipes are empty. -/
  buf : ∀ s, r.tree.buf s = []

/-- The step of a drain thread that sends the piece in its hands, or reads another one. -/
theorem Pumps.drain_step {c : RunConfig} {r : Run} (hr : Pumps r) (hcap : c.captureOutput = true)
    {s : Stream} (hs : (r.output.drain s).hand ≠ [] ∨ r.tree.buf s ≠ []) :
    ∃ a t o, a.granted = true ∧ DrainMove c.captureOutput s r.tree r.output a t o ∧
      Pumps { r with tree := t, output := o } ∧
      Run.rank { r with tree := t, output := o } < r.rank := by
  -- the other stream stays as it is
  have keep : ∀ {a t o}, DrainMove c.captureOutput s r.tree r.output a t o →
      (o.drain s).pc ≠ .idle → (o.drain s).pc ≠ .done → (∀ s', s' ≠ s → t.buf s' = r.tree.buf s') →
      Pumps { r with tree := t, output := o } := by
    intro a t o h hidle hdone hbuf
    refine ⟨hr.main, fun s' => ?_, fun s' hd => ?_⟩
    · by_cases hs' : s' = s
      · subst hs'
        exact hidle
      · rw [h.drain_ne hs']
        exact hr.started s'
    · by_cases hs' : s' = s
      · subst hs'
        exact absurd hd hdone
      · rw [h.drain_ne hs'] at hd
        exact (hbuf s' hs').trans (hr.done s' hd)
  cases hpc : (r.output.drain s).pc with
  | idle => exact absurd hpc (hr.started s)
  | done =>
    rcases hs with hs | hs
    · exact absurd (Drain.hand_of_ne (by simp [hpc])) hs
    · exact absurd (hr.done s hpc) hs
  | sending bs =>
    have h : DrainMove c.captureOutput s r.tree r.output _ _ _ := .send hpc
    refine ⟨_, _, _, rfl, h, keep h (by simp) (by simp) (fun _ _ => rfl), ?_⟩
    have hlen := ChunkChan.length_send r.output.chunks (s.makeMsg (r.output.drain s).seq bs)
    cases s <;> simp_all [Run.rank, Output.setDrain, Output.drain, DrainPc.rank] <;> omega
  | reading =>
    obtain ⟨b, rest, hbuf⟩ : ∃ b rest, r.tree.buf s = b :: rest := by
      apply List.exists_cons_of_ne_nil
      exact hs.resolve_left fun hh => hh (Drain.hand_of_ne (by simp [hpc]))
    have h : DrainMove c.captureOutput s r.tree r.output (.read (.bytes [b])) _ _ :=
      .readBytes hpc (by simp) (by simp [bufSize]) (by simp [hbuf])
    refine ⟨_, _, _, rfl, h, keep h (by simp [hcap]) (by simp [hcap])
      (fun s' hs' => Tree.buf_setBuf_ne _ _ hs'), ?_⟩
    cases s <;> simp_all [Run.rank, Output.setDrain, Output.drain, DrainPc.rank, Tree.setBuf,
      Tree.buf] <;> omega

/-- While something is on its way, a thread of the run moves it. -/
theorem pumps_or_flushed (hcap : (cfg i).captureOutput = true) (hr : Pumps (w.runs i))
    (hback : w.callers (.callback i) = .idle) :
    Flushed (w.runs i) ∨ ∃ l w', (l.granted = true ∧ l.attends i = true) ∧
      step env cfg w l = some w' ∧ (Pumps (w'.runs i) ∧ w'.callers (.callback i) = .idle) ∧
      (w'.runs i).rank < (w.runs i).rank := by
  rcases hr.main with hm | hm
  · by_cases hs : ∃ s, ((w.runs i).output.drain s).hand ≠ [] ∨ (w.runs i).tree.buf s ≠ []
    · obtain ⟨s, hs⟩ := hs
      obtain ⟨a, t, o, ha, h, hpumps, hlt⟩ := hr.drain_step hcap hs
      refine .inr ⟨.drain i s a, _, ⟨ha, by simp [Label.attends]⟩, step_of_drainMove h, ?_, ?_⟩
      · rw [setRun_runs_self]
        exact ⟨hpumps, hback⟩
      · rw [setRun_runs_self]
        exact hlt
    · simp only [not_exists, not_or, not_not] at hs
      cases hq : (w.runs i).output.chunks.queue with
      | nil => exact .inl ⟨hm, hq, fun s => (hs s).1, fun s => (hs s).2⟩
      | cons m q =>
        have h : MainMove env (cfg i) i w.handle (w.runs i) .recv _ _ := .recv hm hq
        refine .inr ⟨.main i .recv, _, ⟨rfl, by simp [Label.attends]⟩,
          step_of_mainMove h (fun ha => by cases ha), ?_, ?_⟩
        · rw [setRun_runs_self]
          refine ⟨⟨.inr rfl, fun s => ?_, fun s => ?_⟩, hback⟩
          · rw [h.drain_eq]
            exact hr.started s
          · rw [h.drain_eq]
            exact hr.done s
        · rw [setRun_runs_self]
          simp only [Run.rank, hm, hq, MainPc.rank, List.length_cons]
          omega
  · have h : MainMove env (cfg i) i w.handle (w.runs i) .chunkReturns _ _ := .chunkReturns hm
    refine .inr ⟨.main i .chunkReturns, _, ⟨rfl, by simp [Label.attends]⟩,
      step_of_mainMove h (fun _ => hback), ?_, ?_⟩
    · rw [setRun_runs_self]
      exact ⟨⟨.inl rfl, hr.started, hr.done⟩, hback⟩
    · rw [setRun_runs_self]
      simp only [Run.rank, hm, MainPc.rank]
      omega

/-- The threads of a run write nothing. -/
theorem writtenTo_of_attends {tr' : List (Label ι)} (s : Stream)
    (h : ∀ l ∈ tr', l.granted = true ∧ l.attends i = true) :
    writtenTo i s (tr ++ tr') = writtenTo i s tr := by
  have hnil : writtenTo i s tr' = [] := by
    apply List.flatMap_eq_nil_iff.mpr
    intro l hl
    have hattends := (h l hl).2
    cases l with
    | proc => cases hattends
    | _ => rfl
  rw [writtenTo, List.flatMap_append]
  exact (congrArg _ hnil).trans (List.append_nil _)

/-- **What has been written is delivered live.**  While the pump loop runs, at the channel or in
a callback that is not inside `cancel()`, and its drain threads are at work, the threads of the
run alone can bring everything that has been written so far to the callback: no process has to
write more, close its pipe or exit. -/
theorem output_is_delivered_live (h : Reaches env cfg tr w)
    (hcap : (cfg i).captureOutput = true)
    (hm : (w.runs i).main = .pump ∨
      ((w.runs i).main = .inChunk ∧ w.callers (.callback i) = .idle))
    (hwork : ∀ s, ((w.runs i).output.drain s).pc ≠ .idle ∧
      ((w.runs i).output.drain s).pc ≠ .done) :
    Lts.Leads (step env cfg) (fun l => l.granted = true ∧ l.attends i = true) w fun w' =>
      (w'.runs i).main = .pump ∧ ∀ s, deliveredFrom s (w'.runs i).events = writtenTo i s tr := by
  have hback : w.callers (.callback i) = .idle := by
    by_contra hne
    have hin := inCallback_of_reaches h hne
    rcases hm with hm | ⟨-, hidle⟩
    · rw [hm] at hin
      cases hin
    · exact hne hidle
  have hpumps : Pumps (w.runs i) :=
    ⟨hm.imp_right And.left, fun s => (hwork s).1, fun s hd => absurd hd (hwork s).2⟩
  have hleads : Lts.Leads (step env cfg) (fun l => l.granted = true ∧ l.attends i = true) w
      fun w => Flushed (w.runs i) :=
    Lts.leads_of_measure (fun w => (w.runs i).rank)
      (I := fun w => Pumps (w.runs i) ∧ w.callers (.callback i) = .idle)
      (fun w hI => pumps_or_flushed hcap hI.1 hI.2) ⟨hpumps, hback⟩
  obtain ⟨tr', w', hok, hexec, hflushed⟩ := hleads
  refine ⟨tr', w', hok, hexec, hflushed.main, fun s => ?_⟩
  -- nothing is on its way, so all that was written has been delivered
  have hreach : Reaches env cfg (tr ++ tr') w' := Lts.exec_append_eq_some.mpr ⟨w, h, hexec⟩
  have hlive : (w'.runs i).receives = true := by
    simp [Run.receives, hflushed.main, MainPc.stage, Stage.live]
  have hbytes := ((flows_of_reaches hreach hcap).forwarded hlive).bytes s
  rw [Run.outgoing, hflushed.queue, List.map_nil, List.append_nil, hflushed.hand,
    List.append_nil] at hbytes
  have hpiped := piped_of_reaches hreach i s
  rw [hflushed.buf, List.append_nil, writtenTo_of_attends s hok] at hpiped
  rw [hbytes, hpiped]

/-- A captured run whose root has written to both pipes, with a chunk in the callback and a piece
still in the hands of a drain thread. -/
def writingRun : List (Label Unit) :=
  beginRun () 7 ++ [Label.main () .openChannel, .main () .dropTx, .main () (.startWait true),
    .wait () (.startOut true), .wait () (.startErr true),
    .proc () (.write .root .stdout [1, 2, 3]), .drain () .stdout (.read (.bytes [1, 2])),
    .drain () .stdout .send, .main () .recv, .drain () .stdout (.read (.bytes [3])),
    .proc () (.write .root .stderr [9])]

/-- What the root has written reaches the callback while the root goes on running. -/
theorem writingRun_is_delivered_live :
    ∃ w, Reaches Env.posix (fun _ => ⟨none, true, true⟩) writingRun w ∧
      Lts.Leads (step Env.posix fun _ => ⟨none, true, true⟩)
        (fun l => l.granted = true ∧ l.attends () = true) w fun w' =>
          (w'.runs ()).main = .pump ∧
            ∀ s, deliveredFrom s (w'.runs ()).events = writtenTo () s writingRun := by
  obtain ⟨w, hw, hm, hback, hout, herr⟩ :
      ∃ w, Reaches Env.posix (fun _ => ⟨none, true, true⟩) writingRun w ∧
        (w.runs ()).main = .inChunk ∧ w.callers (.callback ()) = .idle ∧
        (w.runs ()).output.stdout.pc = .sending [3] ∧
        (w.runs ()).output.stderr.pc = .reading := Lts.exists_exec_of_any (by decide +kernel)
  refine ⟨w, hw, output_is_delivered_live hw rfl (.inr ⟨hm, hback⟩) fun s => ?_⟩
  cases s with
  | stdout => simp [Output.drain, hout]
  | stderr => simp [Output.drain, herr]

end Runs

end AerCore
