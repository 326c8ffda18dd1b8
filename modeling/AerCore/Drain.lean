import AerCore.Capture

/-!
# The two drain loops

`spawn_drain_thread` runs one of two loops over the same pipe: with a sender it
reads and sends until the end of file or any error, without one it leaves the
reading to `io::copy`, which tries again after `ErrorKind::Interrupted`.  They
are compared here over an arbitrary reader, that is, over any sequence of read
results, whatever the loops have asked of it before.

## Main definitions

* `Reader` — what each call of `read` returns.
* `Loop`, `Loop.pass` — what a loop has done, and one turn of it.
* `Reader.after` — what a loop has done after some calls of `read`.
* `SameStream` — both loops have consumed the same bytes, and the messages carry them.

## Main results

* `drain_at_of_reaches` — the drain threads of a run are these loops over its reads.
* `sameStream_iff` — **the loops agree exactly when no bytes come after an interrupted read.**
-/

namespace AerCore

/-! ### Readers and loops -/

/-- What the calls of `read` return, in order. -/
structure Reader where
  /-- The result of a call. -/
  result : ℕ → ReadResult
  /-- A read returns at least one byte and at most a buffer of them. -/
  sizes : ∀ n bs, result n = .bytes bs → 1 ≤ bs.length ∧ bs.length ≤ bufSize

/-- The result ends both loops. -/
def ReadResult.terminal : ReadResult → Bool
  | .eof | .error _ => true
  | .bytes _ | .interrupted => false

/-- The number a message carries. -/
def ChunkMsg.seq : ChunkMsg → ℕ
  | .stdout seq _ | .stderr seq _ => seq

/-- The bytes a message carries. -/
def ChunkMsg.bytes : ChunkMsg → List UInt8
  | .stdout _ bs | .stderr _ bs => bs

@[simp] theorem seq_makeMsg (s : Stream) (n : ℕ) (bs : List UInt8) : (s.makeMsg n bs).seq = n := by
  cases s <;> rfl

@[simp] theorem bytes_makeMsg (s : Stream) (n : ℕ) (bs : List UInt8) :
    (s.makeMsg n bs).bytes = bs := by
  cases s <;> rfl

/-- What a loop has done. -/
structure Loop where
  /-- The bytes it has consumed. -/
  consumed : List UInt8
  /-- The number of the next message. -/
  seq : ℕ
  /-- The messages it has sent. -/
  sent : List ChunkMsg
  /-- Those of them that found the receiver alive. -/
  received : List ChunkMsg
  /-- It has ended. -/
  stopped : Bool
  deriving DecidableEq, Repr

/-- A loop that has not read yet. -/
def Loop.start : Loop := ⟨[], 0, [], [], false⟩

/-- One turn of a loop, on the result of its `read`; `rx` tells whether the
receiver is alive. -/
def Loop.pass (capture : Bool) (s : Stream) (rx : Bool) (l : Loop) : ReadResult → Loop
  | .bytes bs =>
      if capture then
        -- `let _ = tx.send(..)`: the loop goes on whatever becomes of the message
        let m := s.makeMsg l.seq bs
        { l with
          consumed := l.consumed ++ bs
          seq := l.seq + 1
          sent := l.sent ++ [m]
          received := if rx then l.received ++ [m] else l.received }
      else { l with consumed := l.consumed ++ bs }
  | .eof => { l with stopped := true }
  -- `Err(_) => break` with capture; `io::copy` tries again
  | .interrupted => if capture then { l with stopped := true } else l
  | .error _ => { l with stopped := true }

/-- What a loop has done after `n` calls of `read`, or when it has ended before. -/
def Reader.after (rd : Reader) (capture : Bool) (s : Stream) (rx : ℕ → Bool) : ℕ → Loop
  | 0 => .start
  | n + 1 =>
      let l := rd.after capture s rx n
      if l.stopped then l else l.pass capture s (rx n) (rd.result n)

section After

variable {rd : Reader} {capture : Bool} {s : Stream} {rx : ℕ → Bool} {n : ℕ}

theorem after_succ_of_stopped (h : (rd.after capture s rx n).stopped = true) :
    rd.after capture s rx (n + 1) = rd.after capture s rx n := by
  rw [Reader.after, if_pos h]

theorem after_succ (h : (rd.after capture s rx n).stopped = false) :
    rd.after capture s rx (n + 1) =
      (rd.after capture s rx n).pass capture s (rx n) (rd.result n) := by
  rw [Reader.after, if_neg (by simp [h])]

/-- A loop that has ended stays as it is. -/
theorem after_of_stopped (h : (rd.after capture s rx n).stopped = true) {m : ℕ} (hle : n ≤ m) :
    rd.after capture s rx m = rd.after capture s rx n := by
  obtain ⟨k, rfl⟩ := Nat.exists_eq_add_of_le hle
  induction k with
  | zero => rfl
  | succ k ih =>
    have ih := ih (Nat.le_add_right n k)
    rw [← Nat.add_assoc, after_succ_of_stopped (by rw [ih]; exact h), ih]

theorem after_running {m : ℕ} (h : (rd.after capture s rx m).stopped = false) (hle : n ≤ m) :
    (rd.after capture s rx n).stopped = false := by
  cases hn : (rd.after capture s rx n).stopped with
  | false => rfl
  | true =>
    rw [after_of_stopped hn hle, hn] at h
    cases h

end After

/-! ### What the loops consume -/

/-- The messages carry the bytes consumed, and the numbers 0, 1, 2, …. -/
structure Loop.Sends (l : Loop) : Prop where
  /-- Nothing is left out and nothing repeated. -/
  payloads : (l.sent.map ChunkMsg.bytes).flatten = l.consumed
  /-- No gap and no repetition. -/
  seqs : l.sent.map ChunkMsg.seq = List.range l.sent.length
  /-- The next number. -/
  next : l.seq = l.sent.length

theorem Loop.Sends.pass {l : Loop} (h : l.Sends) (s : Stream) (rx : Bool) (x : ReadResult) :
    (l.pass true s rx x).Sends := by
  cases x with
  | bytes bs =>
    refine ⟨?_, ?_, ?_⟩
    · simp [Loop.pass, h.payloads]
    · simp [Loop.pass, h.seqs, h.next, List.range_succ]
    · simp [Loop.pass, h.next]
  | _ => exact ⟨h.payloads, h.seqs, h.next⟩

/-- The loop with a sender sends all it consumes. -/
theorem after_sends (rd : Reader) (s : Stream) (rx : ℕ → Bool) (n : ℕ) :
    (rd.after true s rx n).Sends := by
  induction n with
  | zero => exact ⟨rfl, rfl, rfl⟩
  | succ n ih =>
    cases hs : (rd.after true s rx n).stopped with
    | true =>
      rw [after_succ_of_stopped hs]
      exact ih
    | false =>
      rw [after_succ hs]
      exact ih.pass s (rx n) (rd.result n)

/-- A receiver that is there receives all that is sent. -/
theorem after_received (rd : Reader) (s : Stream) {rx : ℕ → Bool} {n : ℕ}
    (hrx : ∀ k < n, rx k = true) :
    (rd.after true s rx n).received = (rd.after true s rx n).sent := by
  induction n with
  | zero => rfl
  | succ n ih =>
    have ih := ih fun k hk => hrx k (Nat.lt_succ_of_lt hk)
    cases hs : (rd.after true s rx n).stopped with
    | true =>
      rw [after_succ_of_stopped hs]
      exact ih
    | false =>
      rw [after_succ hs, hrx n (Nat.lt_succ_self n)]
      cases rd.result n with
      | bytes bs => exact congrArg (· ++ [_]) ih
      | eof | interrupted | error e => exact ih

/-- The result ends the loop. -/
def ReadResult.stops (capture : Bool) : ReadResult → Bool
  | .bytes _ => false
  | .interrupted => capture
  | .eof | .error _ => true

theorem stopped_pass {capture : Bool} {s : Stream} {rx : Bool} {l : Loop} (x : ReadResult)
    (h : l.stopped = false) : (l.pass capture s rx x).stopped = x.stops capture := by
  cases x with
  | bytes bs | interrupted => cases capture <;> first | exact h | rfl
  | eof | error e => rfl

/-- A loop runs as long as no result ends it. -/
theorem running_iff (rd : Reader) (capture : Bool) (s : Stream) (rx : ℕ → Bool) (n : ℕ) :
    (rd.after capture s rx n).stopped = false ↔
      ∀ k < n, (rd.result k).stops capture = false := by
  induction n with
  | zero => simp [Reader.after, Loop.start]
  | succ n ih =>
    constructor
    · intro h k hk
      have hn := after_running h (Nat.le_succ n)
      rw [after_succ hn, stopped_pass _ hn] at h
      rcases Nat.lt_succ_iff_lt_or_eq.mp hk with hk | rfl
      · exact ih.mp hn k hk
      · exact h
    · intro h
      have hn := ih.mpr fun k hk => h k (Nat.lt_succ_of_lt hk)
      rw [after_succ hn, stopped_pass _ hn]
      exact h n (Nat.lt_succ_self n)

/-- The loop without a sender runs until the first end of file or error other than an
interruption. -/
theorem discard_running_iff (rd : Reader) (s : Stream) (rx : ℕ → Bool) (n : ℕ) :
    (rd.after false s rx n).stopped = false ↔ ∀ k < n, (rd.result k).terminal = false := by
  rw [running_iff]
  refine forall₂_congr fun k _ => ?_
  cases rd.result k <;> exact Iff.rfl

/-- The loop with a sender runs until the first result without bytes. -/
theorem capture_running_iff (rd : Reader) (s : Stream) (rx : ℕ → Bool) (n : ℕ) :
    (rd.after true s rx n).stopped = false ↔ ∀ k < n, (rd.result k).isBytes = true := by
  rw [running_iff]
  refine forall₂_congr fun k _ => ?_
  cases rd.result k <;> simp [ReadResult.stops, ReadResult.isBytes]

/-! ### The two loops on one reader -/

/-- Bytes come after an interrupted read, before the end of the stream. -/
def Reader.BytesAfterInterrupted (rd : Reader) : Prop :=
  ∃ i j, i < j ∧ rd.result i = .interrupted ∧ (rd.result j).isBytes = true ∧
    ∀ k < j, (rd.result k).terminal = false

/-- After `n` calls of `read` the loop with a sender has consumed what the one without has, and
its messages carry just that, numbered from zero, all the way to a receiver that is there. -/
structure SameStream (rd : Reader) (s : Stream) (rx : ℕ → Bool) (n : ℕ) : Prop where
  /-- The same bytes are consumed. -/
  consumed : (rd.after true s rx n).consumed = (rd.after false s rx n).consumed
  /-- The messages carry them. -/
  payloads : ((rd.after true s rx n).sent.map ChunkMsg.bytes).flatten =
    (rd.after false s rx n).consumed
  /-- The messages are numbered. -/
  seqs : (rd.after true s rx n).sent.map ChunkMsg.seq =
    List.range (rd.after true s rx n).sent.length
  /-- A receiver that is there receives them. -/
  received : (∀ k < n, rx k = true) → (rd.after true s rx n).received = (rd.after true s rx n).sent

/-- What is equal is what is consumed. -/
theorem sameStream_iff_consumed {rd : Reader} {s : Stream} {rx : ℕ → Bool} {n : ℕ} :
    SameStream rd s rx n ↔
      (rd.after true s rx n).consumed = (rd.after false s rx n).consumed := by
  constructor
  · exact SameStream.consumed
  · intro h
    have hsends := after_sends rd s rx n
    exact ⟨h, hsends.payloads.trans h, hsends.seqs, after_received rd s⟩

theorem terminal_of_isBytes {x : ReadResult} (h : x.isBytes = true) : x.terminal = false := by
  cases x with
  | bytes bs => rfl
  | eof | interrupted | error e => cases h

/-- The loop without a sender runs at least as long. -/
theorem discard_running_of_capture {rd : Reader} {s : Stream} {rx : ℕ → Bool} {n : ℕ}
    (h : (rd.after true s rx n).stopped = false) : (rd.after false s rx n).stopped = false := by
  rw [discard_running_iff]
  intro k hk
  exact terminal_of_isBytes ((capture_running_iff rd s rx n).mp h k hk)

/-- When only the loop with a sender has ended, a read was interrupted. -/
theorem exists_interrupted {rd : Reader} {s : Stream} {rx : ℕ → Bool} {n : ℕ}
    (hc : (rd.after true s rx n).stopped = true) (hd : (rd.after false s rx n).stopped = false) :
    ∃ i < n, rd.result i = .interrupted := by
  by_contra hnone
  have hbytes : ∀ k < n, (rd.result k).isBytes = true := by
    intro k hk
    have hterm := (discard_running_iff rd s rx n).mp hd k hk
    cases hx : rd.result k with
    | bytes bs => rfl
    | interrupted => exact absurd ⟨k, hk, hx⟩ hnone
    | eof | error e => rw [hx] at hterm; cases hterm
  rw [(capture_running_iff rd s rx n).mpr hbytes] at hc
  cases hc

/-- While no bytes follow an interrupted read, the two loops consume the same. -/
theorem consumed_eq_of_not {rd : Reader} (h : ¬rd.BytesAfterInterrupted) (s : Stream)
    (rx : ℕ → Bool) (n : ℕ) :
    (rd.after true s rx n).consumed = (rd.after false s rx n).consumed := by
  induction n with
  | zero => rfl
  | succ n ih =>
    cases hc : (rd.after true s rx n).stopped with
    | false =>
      rw [after_succ hc, after_succ (discard_running_of_capture hc)]
      cases hx : rd.result n with
      | bytes bs => exact congrArg (· ++ bs) ih
      | eof | interrupted | error e => exact ih
    | true =>
      rw [after_succ_of_stopped hc, ih]
      cases hd : (rd.after false s rx n).stopped with
      | true => rw [after_succ_of_stopped hd]
      | false =>
        rw [after_succ hd]
        cases hx : rd.result n with
        | bytes bs =>
          obtain ⟨i, hi, hint⟩ := exists_interrupted hc hd
          have hterm := (discard_running_iff rd s rx n).mp hd
          exact absurd ⟨i, n, hi, hint, by rw [hx]; rfl, hterm⟩ h
        | eof | interrupted | error e => rfl

/-- When bytes follow an interrupted read, the loop with a sender misses them. -/
theorem consumed_ne_of_bytesAfterInterrupted {rd : Reader} (h : rd.BytesAfterInterrupted)
    (s : Stream) (rx : ℕ → Bool) :
    ∃ n, (rd.after true s rx n).consumed ≠ (rd.after false s rx n).consumed := by
  obtain ⟨i, j, hij, hint, hbytes, hterm⟩ := h
  by_contra hsame
  have hsame : ∀ n, (rd.after true s rx n).consumed = (rd.after false s rx n).consumed := by
    intro n
    by_contra hn
    exact hsame ⟨n, hn⟩
  have hc : (rd.after true s rx j).stopped = true := by
    by_contra hrun
    have := (capture_running_iff rd s rx j).mp (Bool.eq_false_iff.mpr hrun) i hij
    rw [hint] at this
    cases this
  have hd := (discard_running_iff rd s rx j).mpr hterm
  have hlast := hsame (j + 1)
  rw [after_succ_of_stopped hc, after_succ hd, hsame j] at hlast
  cases hx : rd.result j with
  | bytes bs =>
    rw [hx] at hlast
    have hnil : bs = [] := List.self_eq_append_right.mp hlast
    have hpos := (rd.sizes j bs hx).1
    rw [hnil] at hpos
    exact absurd hpos (by simp)
  | eof | interrupted | error e => rw [hx] at hbytes; cases hbytes

/-- **The two drain loops consume the same stream exactly when no bytes come after an
interrupted read**, whether or not the receiver is still there. -/
theorem sameStream_iff (rd : Reader) (s : Stream) :
    (∀ rx n, SameStream rd s rx n) ↔ ¬rd.BytesAfterInterrupted := by
  simp only [sameStream_iff_consumed]
  constructor
  · intro h hbytes
    obtain ⟨n, hn⟩ := consumed_ne_of_bytesAfterInterrupted hbytes s fun _ => true
    exact hn (h _ n)
  · exact fun h => consumed_eq_of_not h s

/-- One byte, an interruption, one byte, end of file. -/
def interruptedReader : Reader where
  result
    | 0 => .bytes [1]
    | 1 => .interrupted
    | 2 => .bytes [2]
    | _ => .eof
  sizes n bs h := by
    match n with
    | 0 => cases h; decide
    | 1 => cases h
    | 2 => cases h; decide
    | _ + 3 => cases h

/-- The second byte of this reader is not captured. -/
theorem interruptedReader_loses_byte :
    (interruptedReader.after false .stdout (fun _ => true) 4).consumed = [1, 2] ∧
    (interruptedReader.after false .stdout (fun _ => true) 4).stopped = true ∧
    (interruptedReader.after true .stdout (fun _ => true) 4).sent = [.stdout 0 [1]] ∧
    (interruptedReader.after true .stdout (fun _ => true) 4).stopped = true ∧
    ¬∀ rx n, SameStream interruptedReader .stdout rx n := by
  refine ⟨by decide, by decide, by decide, by decide, fun h => ?_⟩
  have := (h (fun _ => true) 4).consumed
  revert this
  decide

/-! ### The drain threads of a run -/

/-- The results that a list of reads starts with. -/
def Reader.Gives (rd : Reader) (reads : List ReadResult) : Prop :=
  ∀ n x, reads[n]? = some x → rd.result n = x

/-- A drain thread stands where the loop `l` does. -/
def Drain.At (s : Stream) (d : Drain) (l : Loop) : Prop :=
  match d.pc with
  | .idle => l = .start
  | .reading => l.stopped = false ∧ l.seq = d.seq
  | .sending bs => l.stopped = false ∧ l.seq = d.seq + 1 ∧
      l.sent.getLast? = some (s.makeMsg d.seq bs)
  | .done => l.stopped = true

section Runs

variable {ι : Type*} [DecidableEq ι] {env : Env} {c : RunConfig} {i : ι} {hd : CancelHandle ι}
  {r r' : Run} {l : Label ι} {s : Stream}

/-- A step of the system leaves a drain thread alone, starts it, or is a step of it. -/
theorem RunMove.drain_cases (h : RunMove env c i hd r l r') (ha : Answered env r) (s : Stream) :
    (r'.output.drain s = r.output.drain s ∧ l.readOf? i s = none) ∨
    ((r.output.drain s).pc = .idle ∧ r'.output.drain s = ⟨.reading, 0⟩ ∧ l.readOf? i s = none) ∨
    ∃ a t, l = .drain i s a ∧ DrainMove c.captureOutput s r.tree r.output a t r'.output := by
  cases h with
  | main h => exact .inl ⟨h.drain_eq s, rfl⟩
  | monitor h => exact .inl ⟨by rw [h.output_eq], rfl⟩
  | wait h =>
    cases h with
    | startOut pc =>
      cases s with
      | stdout => exact .inr (.inl ⟨ha.drain_idle (.inr pc) .stdout, rfl, rfl⟩)
      | stderr => exact .inl ⟨rfl, rfl⟩
    | startErr pc =>
      cases s with
      | stdout => exact .inl ⟨rfl, rfl⟩
      | stderr =>
        have hidle := ha.wait
        rw [pc] at hidle
        exact .inr (.inl ⟨hidle, rfl, rfl⟩)
    | startOutFails | startErrFails => exact .inl ⟨Output.drain_with_chunks _ _ s, rfl⟩
    | _ => exact .inl ⟨rfl, rfl⟩
  | @drain s' a t o h =>
    by_cases hs : s = s'
    · subst hs
      exact .inr (.inr ⟨a, t, rfl, h⟩)
    · refine .inl ⟨h.drain_ne hs, ?_⟩
      cases a <;> simp [Label.readOf?, Ne.symm hs]
  | proc | cancelKill => exact .inl ⟨rfl, rfl⟩
  | other hl =>
    refine .inl ⟨rfl, ?_⟩
    cases l with
    | drain j s' a =>
      have hj : j ≠ i := by simpa [Label.touches] using hl
      cases a <;> simp [Label.readOf?, hj]
    | _ => rfl

/-- A step of a drain thread is a turn of its loop, or the send that belongs to one. -/
theorem DrainMove.at {capture : Bool} {t t' : Tree} {o o' : Output} {x : ReadResult} {l : Loop}
    (h : DrainMove capture s t o (.read x) t' o') (rx : Bool) (hat : (o.drain s).At s l) :
    l.stopped = false ∧ (o'.drain s).At s (l.pass capture s rx x) := by
  have hrun : l.stopped = false ∧ l.seq = (o.drain s).seq := by
    unfold Drain.At at hat
    cases h with
    | readBytes pc | readEof pc | readInterrupted pc | readError pc =>
      rw [pc] at hat
      exact hat
  refine ⟨hrun.1, ?_⟩
  cases h with
  | readBytes pc =>
    rw [Output.drain_setDrain_self]
    cases capture with
    | true => exact ⟨hrun.1, by simp [Loop.pass, hrun.2], by simp [Loop.pass, hrun.2]⟩
    | false => exact hrun
  | readEof pc | readError pc =>
    rw [Output.endDrain, Output.drain_with_chunks, Output.drain_setDrain_self]
    exact rfl
  | readInterrupted pc =>
    cases capture with
    | true =>
      simp only [if_true, Output.endDrain, Output.drain_with_chunks, Output.drain_setDrain_self]
      exact rfl
    | false =>
      show (o.drain s).At s l
      exact hat

theorem DrainMove.at_send {capture : Bool} {t t' : Tree} {o o' : Output} {l : Loop}
    (h : DrainMove capture s t o .send t' o') (hat : (o.drain s).At s l) :
    (o'.drain s).At s l := by
  cases h with
  | send pc =>
    unfold Drain.At at hat
    rw [pc] at hat
    rw [Output.drain_with_chunks, Output.drain_setDrain_self]
    exact ⟨hat.1, hat.2.1⟩

/-- The drain threads of a run are these loops over the reads of the run. -/
theorem drain_at_of_reaches {cfg : ι → RunConfig} {tr : List (Label ι)} {w : World ι}
    (h : Reaches env cfg tr w) (i : ι) (s : Stream) {rd : Reader} (rx : ℕ → Bool)
    (hrd : rd.Gives (readsOf i s tr)) :
    ((w.runs i).output.drain s).At s
      (rd.after (cfg i).captureOutput s rx (readsOf i s tr).length) := by
  have key : rd.Gives (readsOf i s tr) → ((w.runs i).output.drain s).At s
      (rd.after (cfg i).captureOutput s rx (readsOf i s tr).length) := by
    refine Lts.exec_invariant (P := fun tr w => rd.Gives (readsOf i s tr) →
      ((w.runs i).output.drain s).At s
        (rd.after (cfg i).captureOutput s rx (readsOf i s tr).length)) ?_ ?_ h
    · intro _
      cases s <;> rfl
    · intro tr w l w' hw ih hstep hgives
      have ih := ih fun n x hx => hgives n x (by
        rw [readsOf_concat, List.getElem?_append_left (List.getElem?_eq_some_iff.mp hx).1]
        exact hx)
      rcases (runMove_of_step hstep i).drain_cases (answered_of_reaches hw i) s with
        ⟨hd, hread⟩ | ⟨hidle, hd, hread⟩ | ⟨a, t, rfl, hmove⟩
      · rw [readsOf_concat, hread, hd, Option.toList_none, List.append_nil]
        exact ih
      · rw [readsOf_concat, hread, hd, Option.toList_none, List.append_nil]
        unfold Drain.At at ih
        rw [hidle] at ih
        rw [ih]
        exact ⟨rfl, rfl⟩
      · cases a with
        | send =>
          have hread : (Label.drain i s .send).readOf? i s = none := rfl
          rw [readsOf_concat, hread, Option.toList_none, List.append_nil]
          exact hmove.at_send ih
        | read x =>
          have hread : (Label.drain i s (.read x)).readOf? i s = some x := by
            simp [Label.readOf?]
          have hx := hgives (readsOf i s tr).length x (by
            rw [readsOf_concat, hread]
            simp)
          obtain ⟨hrun, hat⟩ := hmove.at (rx (readsOf i s tr).length) ih
          rw [readsOf_concat, hread, Option.toList_some, List.length_append,
            List.length_singleton, after_succ hrun, hx]
          exact hat
  exact key hrd

end Runs

end AerCore
