import AerCore.Capture

/-!
# What the caller sees

The caller of `run` knows a run by the calls of its callback and by the result alone.  What it
may rely on is a contract with four phases: `Started` opens it, captured chunks arrive numbered
from zero, `Exited` closes it with a reason the task is configured for, and the result is the
one that goes with the phase in which `run` returns.

The contract is a step function of its own that knows nothing of threads, channels or
processes.  Every run refines it, with a refinement map that can be read off the events, and so
every property of the sequences it accepts is one of every run.

## Main definitions

* `Observation`, `Run.seen` — what the caller has seen of a run.
* `Phase`, `Observer`, `Observer.step` — the contract.
* `Run.observer` — the refinement map.
* `Ordered` — the ordering invariants of a sequence of events and results.

## Main results

* `ordered_of_exec` — every sequence the contract accepts is ordered.
* `run_refines_contract` — **what is seen of a run is at every moment accepted by the
  contract**.
* `run_is_ordered` — **the ordering invariants hold of every run at every moment**.
-/

namespace AerCore

variable {ι : Type*}

/-! ### The contract -/

/-- What the caller of `run` sees: a call of its callback, or the return. -/
inductive Observation
  | event (e : Event)
  | returned (res : Except AerError Unit)
  deriving DecidableEq

/-- Where a run stands, as far as its caller can tell. -/
inductive Phase
  | created
  | running
  | exited (reason : ExitReason)
  | returned
  deriving DecidableEq

/-- The state of the contract. -/
structure Observer where
  /-- The phase. -/
  phase : Phase
  /-- The number of the next chunk of each stream. -/
  next : Stream → ℕ

/-- Nothing has been seen. -/
def Observer.start : Observer := ⟨.created, fun _ => 0⟩

/-- The reasons that a configuration allows for. -/
def RunConfig.allows (c : RunConfig) : ExitReason → Bool
  | .naturalExit => true
  | .timedOut => c.timeout.isSome
  | .cancelRequested => c.cancel

/-- The result that goes with a reason. -/
def ExitReason.result : ExitReason → Except AerError Unit
  | .naturalExit => .ok ()
  | .timedOut => .error .timedOut
  | .cancelRequested => .error .cancelled

/-- The results that go with a phase. -/
def Phase.returns : Phase → Except AerError Unit → Bool
  | .created, .error (.spawnFailed _) => true
  | .running, .error (.waitFailed _) => true
  | .exited reason, res => decide (res = reason.result)
  | _, _ => false

namespace Observer

/-- A chunk is accepted while the process runs, if it has the next number of its stream. -/
def chunk (c : RunConfig) (o : Observer) (s : Stream) (seq : ℕ) (bs : List UInt8) :
    Option Observer :=
  if o.phase = .running ∧ c.captureOutput = true ∧ seq = o.next s ∧
      1 ≤ bs.length ∧ bs.length ≤ bufSize then
    some { o with next := Function.update o.next s (seq + 1) }
  else none

/-- **The contract of a run.** -/
def step (c : RunConfig) (o : Observer) : Observation → Option Observer
  | .event (.started _) =>
      if o.phase = .created then some { o with phase := .running } else none
  | .event (.stdoutChunk seq bs) => o.chunk c .stdout seq bs
  | .event (.stderrChunk seq bs) => o.chunk c .stderr seq bs
  | .event (.exited code reason) =>
      -- a run that was killed has no exit code
      if o.phase = .running ∧ c.allows reason = true ∧ (reason ≠ .naturalExit → code = -1) then
        some { o with phase := .exited reason }
      else none
  | .returned res =>
      if o.phase.returns res = true then some { o with phase := .returned } else none

end Observer

/-! ### The sequences that the contract accepts -/

/-- The events among what was seen. -/
def Observation.event? : Observation → Option Event
  | .event e => some e
  | .returned _ => none

/-- The events among what was seen, in order. -/
def eventsOf (l : List Observation) : List Event := l.filterMap Observation.event?

/-- **The ordering invariants** of what the caller sees. -/
structure Ordered (c : RunConfig) (seen : List Observation) : Prop where
  /-- `Started` is the first event, and no other event is `Started`. -/
  started : ∀ pre e post, seen = pre ++ .event e :: post →
    ((∃ pid, e = .started pid) ↔ pre = [])
  /-- A chunk comes before `Exited`, and only with capture. -/
  chunk : ∀ pre e post, seen = pre ++ .event e :: post → e.isChunk = true →
    c.captureOutput = true ∧ ∀ code reason, .event (.exited code reason) ∉ pre
  /-- The chunks of each stream are numbered from zero without a gap. -/
  numbered : ∀ s, Numbered (chunksOf s (eventsOf seen))
  /-- After `Exited` comes the result that goes with its reason, and nothing else. -/
  exited : ∀ pre code reason post, seen = pre ++ .event (.exited code reason) :: post →
    c.allows reason = true ∧ (reason ≠ .naturalExit → code = -1) ∧
      (post = [] ∨ post = [.returned reason.result])
  /-- The result comes last: after `Exited`, or as an error of the spawn or of the wait. -/
  returned : ∀ pre res post, seen = pre ++ .returned res :: post → post = [] ∧
    ((∃ pre' code reason, pre = pre' ++ [Observation.event (.exited code reason)] ∧
        res = reason.result) ∨
      ((∃ e, res = .error (.spawnFailed e)) ∧ pre = []) ∨
      (∃ e, res = .error (.waitFailed e)) ∧ pre ≠ [] ∧
        ∀ code reason, .event (.exited code reason) ∉ pre)

section Contract

variable {c : RunConfig} {o o' : Observer} {l : List Observation}

/-- How far a phase is. -/
def Phase.rank : Phase → ℕ
  | .created => 0
  | .running => 1
  | .exited _ => 2
  | .returned => 3

/-- The moves of the contract. -/
inductive Accepts (c : RunConfig) (o : Observer) : Observation → Observer → Prop
  | started {pid} (phase : o.phase = .created) :
      Accepts c o (.event (.started pid)) { o with phase := .running }
  | chunk {s : Stream} {bs e} (event : e = (s.makeMsg (o.next s) bs).event)
      (phase : o.phase = .running) (capture : c.captureOutput = true)
      (pos : 1 ≤ bs.length) (le : bs.length ≤ bufSize) :
      Accepts c o (.event e) { o with next := Function.update o.next s (o.next s + 1) }
  | exited {code reason} (phase : o.phase = .running) (allows : c.allows reason = true)
      (hcode : reason ≠ .naturalExit → code = -1) :
      Accepts c o (.event (.exited code reason)) { o with phase := .exited reason }
  | returned {res} (phase : o.phase.returns res = true) :
      Accepts c o (.returned res) { o with phase := .returned }

theorem isChunk_makeMsg (s : Stream) (seq : ℕ) (bs : List UInt8) :
    (s.makeMsg seq bs).event.isChunk = true := by
  cases s <;> rfl

theorem accepts_of_chunk {s : Stream} {seq : ℕ} {bs : List UInt8}
    (h : o.chunk c s seq bs = some o') : Accepts c o (.event (s.makeMsg seq bs).event) o' := by
  obtain ⟨⟨hphase, hcap, rfl, hpos, hle⟩, h⟩ := Option.ite_none_right_eq_some.mp h
  cases h
  exact .chunk rfl hphase hcap hpos hle

theorem accepts_of_step {x : Observation} (h : o.step c x = some o') : Accepts c o x o' := by
  cases x with
  | event e =>
    cases e with
    | started pid =>
      obtain ⟨hphase, h⟩ := Option.ite_none_right_eq_some.mp h
      cases h
      exact .started hphase
    | exited code reason =>
      obtain ⟨⟨hphase, hallows, hcode⟩, h⟩ := Option.ite_none_right_eq_some.mp h
      cases h
      exact .exited hphase hallows hcode
    | stdoutChunk seq bs => exact accepts_of_chunk h
    | stderrChunk seq bs => exact accepts_of_chunk h
  | returned res =>
    obtain ⟨hphase, h⟩ := Option.ite_none_right_eq_some.mp h
    cases h
    exact .returned hphase

/-- No phase is entered twice, and none is gone back to. -/
theorem Accepts.rank_le {x : Observation} (h : Accepts c o x o') :
    o.phase.rank ≤ o'.phase.rank := by
  cases h with
  | started phase | exited phase => simp [phase, Phase.rank]
  | chunk => exact Nat.le_refl _
  | returned =>
    show o.phase.rank ≤ 3
    cases o.phase <;> simp [Phase.rank]

theorem Accepts.ne_created {x : Observation} (h : Accepts c o x o') : o'.phase ≠ .created := by
  cases h with
  | chunk _ phase => simp [phase]
  | _ => simp

theorem rank_le_of_exec (h : Lts.exec (Observer.step c) o l = some o') :
    o.phase.rank ≤ o'.phase.rank := by
  refine Lts.exec_invariant (P := fun _ o' => o.phase.rank ≤ o'.phase.rank) (Nat.le_refl _) ?_ h
  intro tr m x m' _ hm hstep
  exact Nat.le_trans hm (accepts_of_step hstep).rank_le

/-- Only a run of which nothing has been seen is not started. -/
theorem created_iff (h : Lts.exec (Observer.step c) .start l = some o) :
    o.phase = .created ↔ l = [] := by
  rcases List.eq_nil_or_concat l with rfl | ⟨tr, x, rfl⟩
  · obtain rfl : Observer.start = o := by simpa using h
    simp [Observer.start]
  · rw [List.concat_eq_append] at h ⊢
    obtain ⟨m, -, hstep⟩ := Lts.exec_concat_eq_some.mp h
    simp [(accepts_of_step hstep).ne_created]

/-- Nothing is seen after the return. -/
theorem eq_nil_of_returned (ho : o.phase = .returned)
    (h : Lts.exec (Observer.step c) o l = some o') : l = [] := by
  cases l with
  | nil => rfl
  | cons x l =>
    obtain ⟨m, hm, -⟩ := Option.bind_eq_some_iff.mp h
    cases accepts_of_step hm with
    | started phase | chunk _ phase | exited phase => simp [ho] at phase
    | returned phase => simp [ho, Phase.returns] at phase

/-- After `Exited` only the return is seen, with the result that goes with the reason. -/
theorem eq_returned_of_exited {reason : ExitReason} (ho : o.phase = .exited reason)
    (h : Lts.exec (Observer.step c) o l = some o') : l = [] ∨ l = [.returned reason.result] := by
  cases l with
  | nil => exact .inl rfl
  | cons x l =>
    obtain ⟨m, hm, hl⟩ := Option.bind_eq_some_iff.mp h
    cases accepts_of_step hm with
    | started phase | chunk _ phase | exited phase => simp [ho] at phase
    | @returned res phase =>
      have hres : res = reason.result := by simpa [ho, Phase.returns] using phase
      rw [hres, eq_nil_of_returned rfl hl]
      exact .inr rfl

/-- While the process runs, `Exited` has not been seen. -/
theorem not_exited_of_running (h : Lts.exec (Observer.step c) .start l = some o)
    (ho : o.phase = .running) (code : ℤ) (reason : ExitReason) :
    .event (.exited code reason) ∉ l := by
  intro hmem
  obtain ⟨l₁, l₂, m, m', -, -, hstep, hrest⟩ := Lts.exec_of_mem h hmem
  have hle := rank_le_of_exec hrest
  cases accepts_of_step hstep with
  | exited => simp [ho, Phase.rank] at hle
  | @chunk s bs _ event =>
    have hchunk := isChunk_makeMsg s (m.next s) bs
    rw [← event] at hchunk
    cases hchunk

/-- What was seen last before the phase of `Exited` is `Exited`. -/
theorem last_of_exited {reason : ExitReason} (h : Lts.exec (Observer.step c) .start l = some o)
    (ho : o.phase = .exited reason) :
    ∃ l' code, l = l' ++ [Observation.event (.exited code reason)] := by
  rcases List.eq_nil_or_concat l with rfl | ⟨l', x, rfl⟩
  · have hcreated := (created_iff h).mpr rfl
    simp [ho] at hcreated
  · rw [List.concat_eq_append] at h ⊢
    obtain ⟨m, -, hstep⟩ := Lts.exec_concat_eq_some.mp h
    cases accepts_of_step hstep with
    | started | returned => simp at ho
    | chunk _ phase => simp [phase] at ho
    | @exited code reason' =>
      obtain rfl : reason' = reason := by simpa using ho
      exact ⟨l', code, rfl⟩

theorem returns_created {res : Except AerError Unit} (h : Phase.created.returns res = true) :
    ∃ e, res = .error (.spawnFailed e) := by
  cases res with
  | ok => cases h
  | error e => cases e <;> first | exact ⟨_, rfl⟩ | cases h

theorem returns_running {res : Except AerError Unit} (h : Phase.running.returns res = true) :
    ∃ e, res = .error (.waitFailed e) := by
  cases res with
  | ok => cases h
  | error e => cases e <;> first | exact ⟨_, rfl⟩ | cases h

/-- The number of the next chunk is the number of chunks seen. -/
theorem numbered_of_exec (h : Lts.exec (Observer.step c) .start l = some o) (s : Stream) :
    Numbered (chunksOf s (eventsOf l)) ∧ o.next s = (chunksOf s (eventsOf l)).length := by
  refine Lts.exec_invariant (P := fun l o => Numbered (chunksOf s (eventsOf l)) ∧
    o.next s = (chunksOf s (eventsOf l)).length) ⟨⟨rfl, fun p hp => by cases hp⟩, rfl⟩ ?_ h
  rintro l m x m' - ⟨hn, hnext⟩ hstep
  have happ : chunksOf s (eventsOf (l ++ [x])) =
      chunksOf s (eventsOf l) ++ chunksOf s (eventsOf [x]) := by
    rw [eventsOf, List.filterMap_append, chunksOf, List.filterMap_append]
    rfl
  rw [happ]
  have quiet : chunksOf s (eventsOf [x]) = [] → m'.next s = m.next s →
      Numbered (chunksOf s (eventsOf l) ++ chunksOf s (eventsOf [x])) ∧
        m'.next s = (chunksOf s (eventsOf l) ++ chunksOf s (eventsOf [x])).length := by
    intro hnil hsame
    rw [hnil, hsame, List.append_nil]
    exact ⟨hn, hnext⟩
  cases accepts_of_step hstep with
  | started => exact quiet (by simp [eventsOf, Observation.event?, chunksOf]) rfl
  | exited => exact quiet (by simp [eventsOf, Observation.event?, chunksOf]) rfl
  | returned => exact quiet (by simp [eventsOf, Observation.event?, chunksOf]) rfl
  | @chunk s' bs e event _ _ pos le =>
    subst event
    have hone : chunksOf s (eventsOf [.event (s'.makeMsg (m.next s') bs).event]) =
        if s' = s then [(m.next s', bs)] else [] := by
      by_cases hs : s' = s <;> simp [eventsOf, Observation.event?, chunksOf, chunkOf?_makeMsg, hs]
    by_cases hs : s' = s
    · subst hs
      rw [hone, if_pos rfl, hnext]
      exact ⟨hn.concat pos le, by simp⟩
    · exact quiet (by rw [hone, if_neg hs]) (Function.update_of_ne (Ne.symm hs) _ _)

/-- **Every sequence the contract accepts is ordered.** -/
theorem ordered_of_exec (h : Lts.exec (Observer.step c) .start l = some o) : Ordered c l := by
  -- the state in which each element is accepted
  have split : ∀ pre x post, l = pre ++ x :: post → ∃ m m',
      Lts.exec (Observer.step c) .start pre = some m ∧ Accepts c m x m' ∧
        Lts.exec (Observer.step c) m' post = some o := by
    rintro pre x post rfl
    obtain ⟨m, hpre, hrest⟩ := Lts.exec_append_eq_some.mp h
    obtain ⟨m', hstep, hpost⟩ := Option.bind_eq_some_iff.mp hrest
    exact ⟨m, m', hpre, accepts_of_step hstep, hpost⟩
  refine ⟨?_, ?_, fun s => (numbered_of_exec h s).1, ?_, ?_⟩
  · intro pre e post hl
    obtain ⟨m, m', hpre, haccepts, -⟩ := split pre _ post hl
    rw [← created_iff hpre]
    cases haccepts with
    | started phase => exact ⟨fun _ => phase, fun _ => ⟨_, rfl⟩⟩
    | @chunk s bs _ event phase =>
      have hchunk := isChunk_makeMsg s (m.next s) bs
      rw [← event] at hchunk
      constructor
      · rintro ⟨pid, rfl⟩
        cases hchunk
      · intro hc
        simp [phase] at hc
    | exited phase =>
      constructor
      · rintro ⟨pid, he⟩
        cases he
      · intro hc
        simp [phase] at hc
  · intro pre e post hl he
    obtain ⟨m, m', hpre, haccepts, -⟩ := split pre _ post hl
    cases haccepts with
    | chunk _ phase capture => exact ⟨capture, not_exited_of_running hpre phase⟩
    | started | exited => cases he
  · intro pre code reason post hl
    obtain ⟨m, m', -, haccepts, hpost⟩ := split pre _ post hl
    generalize hx : Event.exited code reason = e at haccepts
    cases haccepts with
    | exited phase allows hcode =>
      cases hx
      exact ⟨allows, hcode, eq_returned_of_exited rfl hpost⟩
    | started => cases hx
    | @chunk s _ _ event =>
      rw [event] at hx
      cases s <;> cases hx
  · intro pre res post hl
    obtain ⟨m, m', hpre, haccepts, hpost⟩ := split pre _ post hl
    cases haccepts with
    | returned phase =>
      refine ⟨eq_nil_of_returned rfl hpost, ?_⟩
      cases hm : m.phase with
      | created => exact .inr (.inl ⟨returns_created (hm ▸ phase), (created_iff hpre).mp hm⟩)
      | running =>
        refine .inr (.inr ⟨returns_running (hm ▸ phase), ?_, not_exited_of_running hpre hm⟩)
        intro hnil
        rw [(created_iff hpre).mpr hnil] at hm
        cases hm
      | exited reason =>
        obtain ⟨pre', code, hlast⟩ := last_of_exited hpre hm
        rw [hm] at phase
        exact .inl ⟨pre', code, reason, hlast, of_decide_eq_true phase⟩
      | returned => simp [hm, Phase.returns] at phase

end Contract

/-! ### What is seen of a run -/

/-- The result of a run that has returned. -/
def MainPc.result? : MainPc → Option (Except AerError Unit)
  | .finished (.ret res) => some res
  | _ => none

/-- What the caller has seen of a run. -/
def Run.seen (r : Run) : List Observation :=
  r.events.map .event ++ (r.main.result?.map .returned).toList

/-- The phase that the events tell. -/
def phaseOf (es : List Event) : Phase :=
  match es.getLast? with
  | none => .created
  | some (.exited _ reason) => .exited reason
  | some _ => .running

/-- The state of the lifecycle machine in a phase before the return. -/
def Phase.state : Phase → State
  | .created => .created
  | .running => .running
  | .exited _ | .returned => .exited

/-- **The refinement map.** -/
def Run.observer (r : Run) : Observer where
  phase := if r.main.result?.isSome then .returned else phaseOf r.events
  next := fun s => (chunksOf s r.events).length

/-- What has been seen is accepted, and leads to the state that the run shows. -/
def Refines (c : RunConfig) (r : Run) : Prop :=
  Lts.exec (Observer.step c) .start r.seen = some r.observer

section Moves

variable {env : Env} {c : RunConfig} {i : ι} {hd hd' : CancelHandle ι} {r r' : Run}
  {tr : List (Label ι)} {l : Label ι}

/-- What neither emits nor returns is not seen. -/
theorem Refines.frame (h : Refines c r) (hevents : r'.events = r.events)
    (hmain : r'.main.result? = r.main.result?) : Refines c r' := by
  unfold Refines at h ⊢
  rw [Run.seen, Run.observer, hevents, hmain]
  exact h

/-- An event is seen before the return. -/
theorem Refines.emit (h : Refines c r) {e : Event} (hevents : r'.events = r.events ++ [e])
    (hmain : r.main.result? = none) (hmain' : r'.main.result? = none)
    (hstep : Observer.step c r.observer (.event e) = some r'.observer) : Refines c r' := by
  have hseen : r'.seen = r.seen ++ [Observation.event e] := by
    simp [Run.seen, hevents, hmain, hmain']
  unfold Refines
  rw [hseen]
  exact Lts.exec_concat_eq_some.mpr ⟨_, h, hstep⟩

/-- The return is seen last. -/
theorem Refines.finish (h : Refines c r) {res : Except AerError Unit}
    (hevents : r'.events = r.events) (hmain : r.main.result? = none)
    (hmain' : r'.main.result? = some res) (hres : (phaseOf r.events).returns res = true) :
    Refines c r' := by
  have hseen : r'.seen = r.seen ++ [Observation.returned res] := by
    simp [Run.seen, hevents, hmain, hmain']
  unfold Refines
  rw [hseen]
  refine Lts.exec_concat_eq_some.mpr ⟨_, h, ?_⟩
  simp [Observer.step, Run.observer, hevents, hmain, hmain', hres]

@[simp] theorem phaseOf_exited (es : List Event) (code : ℤ) (reason : ExitReason) :
    phaseOf (es ++ [Event.exited code reason]) = .exited reason := by
  simp [phaseOf]

/-- Any other event means that the process runs. -/
theorem phaseOf_concat (es : List Event) {e : Event}
    (he : ∀ code reason, e ≠ .exited code reason) : phaseOf (es ++ [e]) = .running := by
  cases e with
  | exited code reason => exact absurd rfl (he code reason)
  | _ => simp [phaseOf]

/-- After `Started` and some chunks the process runs. -/
theorem phaseOf_started {pid : ℕ} {chunks : List Event} (h : ChunksOnly c chunks) :
    phaseOf (.started pid :: chunks) = .running := by
  rcases List.eq_nil_or_concat chunks with rfl | ⟨es, e, rfl⟩
  · rfl
  · rw [List.concat_eq_append] at h ⊢
    refine phaseOf_concat (.started pid :: es) fun code reason he => ?_
    have hchunk := h.1 e (by simp)
    rw [he] at hchunk
    cases hchunk

/-- A run of a shape returns what goes with its events. -/
theorem HasShape.returns {root : Root} {es : List Event} {res : Except AerError Unit}
    {k : ShapeKind} (h : HasShape c root es res k) : (phaseOf es).returns res = true := by
  cases k with
  | spawnFailed =>
    obtain ⟨rfl, e, rfl⟩ := h
    rfl
  | natural =>
    obtain ⟨pid, chunks, status, -, -, rfl, rfl⟩ := h
    rw [← List.cons_append, phaseOf_exited]
    rfl
  | timedOut =>
    obtain ⟨-, pid, chunks, -, rfl, rfl⟩ := h
    rw [← List.cons_append, phaseOf_exited]
    rfl
  | cancelled =>
    obtain ⟨-, pid, chunks, -, rfl, rfl⟩ := h
    rw [← List.cons_append, phaseOf_exited]
    rfl
  | waitFailed =>
    obtain ⟨pid, chunks, e, hc, rfl, rfl⟩ := h
    rw [phaseOf_started hc]
    rfl

theorem Running.phase (h : Running c r) : phaseOf r.events = .running := by
  obtain ⟨-, pid, chunks, hc, hev⟩ := h
  rw [hev, phaseOf_started hc]

/-- The reason of a verdict is one the configuration allows for. -/
theorem FlagsBacked.allows {t cn : Bool} (h : FlagsBacked c t cn) :
    c.allows (exitReason t cn) = true := by
  cases t with
  | true => exact h.1 rfl
  | false =>
    cases cn with
    | true => exact h.2 rfl
    | false => rfl

/-- Only a run that ended on its own has an exit code. -/
theorem exitCode_of_reason (code : ℤ) (t cn : Bool) (h : exitReason t cn ≠ .naturalExit) :
    exitCode code t cn = -1 := by
  cases t <;> cases cn <;> first | rfl | exact absurd rfl h

/-- A chunk at the head of the queue has the next number of its stream. -/
theorem InOrder.next [DecidableEq ι] {m : ChunkMsg} {q : List ChunkMsg}
    (hq : r.output.chunks.queue = m :: q) {s : Stream} {seq : ℕ} {bs : List UInt8}
    (hm : m = s.makeMsg seq bs) (h : InOrder i s tr r) :
    seq = (chunksOf s r.events).length ∧ 1 ≤ bs.length ∧ bs.length ≤ bufSize := by
  have hsent : sentOf s r = chunksOf s r.events ++
      (seq, bs) :: q.filterMap (Event.chunkOf? s ∘ ChunkMsg.event) := by
    simp [sentOf, chunksOf, hq, hm, chunkOf?_makeMsg, List.filterMap_map]
  obtain ⟨⟨hseqs, hsizes⟩, -⟩ := h
  rw [hsent] at hseqs hsizes
  refine ⟨?_, hsizes (seq, bs) (by simp)⟩
  have hget := congrArg (fun l => l[(chunksOf s r.events).length]?) hseqs
  simpa using hget

theorem ChunkMsg.exists_eq_makeMsg (m : ChunkMsg) : ∃ s seq bs, m = Stream.makeMsg s seq bs := by
  cases m with
  | stdout seq bs => exact ⟨.stdout, seq, bs, rfl⟩
  | stderr seq bs => exact ⟨.stderr, seq, bs, rfl⟩

theorem Observer.step_makeMsg (o : Observer) (s : Stream) (seq : ℕ) (bs : List UInt8) :
    o.step c (.event (s.makeMsg seq bs).event) = o.chunk c s seq bs := by
  cases s <;> rfl

/-- A chunk is counted among those of its own stream. -/
theorem length_chunksOf_concat (s' s : Stream) (seq : ℕ) (bs : List UInt8) (es : List Event) :
    (chunksOf s' (es ++ [(s.makeMsg seq bs).event])).length =
      Function.update (fun s => (chunksOf s es).length) s ((chunksOf s es).length + 1) s' := by
  by_cases hs : s' = s
  · subst hs
    simp [chunksOf, chunkOf?_makeMsg]
  · simp [chunksOf, chunkOf?_makeMsg, hs, Ne.symm hs]

theorem Run.observer_of_running (hmain : r.main.result? = none) :
    r.observer = ⟨phaseOf r.events, fun s => (chunksOf s r.events).length⟩ := by
  simp [Run.observer, hmain]

/-- A way out is seen as the return it is. -/
theorem Refines.leave {o : Outcome} (hr : Refines c r) (hevents : r'.events = r.events)
    (hmain : r.main.result? = none) (hmain' : r'.main = .finished o)
    (hshape : ∀ res, o = .ret res → ∃ k, HasShape c r.tree.root r.events res k) :
    Refines c r' := by
  cases o with
  | ret res =>
    obtain ⟨k, hk⟩ := hshape res rfl
    exact hr.finish hevents hmain (by rw [hmain']; rfl) hk.returns
  | unwound => exact hr.frame hevents (by rw [hmain, hmain']; rfl)

/-- The run thread does what the contract allows. -/
theorem MainMove.refines [DecidableEq ι] {a : MainAct} (h : MainMove env c i hd r a hd' r')
    (hl : Lifecycle c r) (hc : c.captureOutput = true → CaptureAt i tr r r.main.stage)
    (hr : Refines c r) : Refines c r' := by
  have he := hl.events
  cases h with
  | spawnMore pc | spawnOk pc | startedRefused pc | startedPanics pc | wire pc | probeMore pc
  | probeAlive pc | probeDead pc | fire pc | killMore pc | killDone pc | startMonitorFails pc
  | openChannel pc | dropTx pc | startWait pc | startWaitFails pc | recvClosed pc | chunkReturns pc
  | chunkPanics pc | recvWait pc | recvWaitLost pc | callWait pc | waitPanicked pc | clear pc
  | stopMonitor pc | loadTimedOut pc | loadKillFired pc | exitedRefused pc | exitedReturns pc
  | exitedPanics pc | guardMore pc | guardDone pc => exact hr.frame rfl (by rw [pc]; rfl)
  | startedReturns pc | loadCancelled pc | loadFired pc =>
    exact hr.frame rfl (by rw [pc]; simp only; split <;> rfl)
  | startMonitor pc | noMonitor pc =>
    exact hr.frame rfl (by rw [pc]; simp only [RunConfig.afterMonitor]; split <;> rfl)
  | @joinWait res pc | @waitReturned res pc =>
    cases res with
    | ok code => exact hr.frame rfl (by rw [pc]; simp only [Run.afterWait]; split <;> rfl)
    | error e => exact hr.frame rfl (by rw [pc]; rfl)
  | spawnFailed pc =>
    rw [pc] at he
    exact hr.finish rfl (by rw [pc]; rfl) rfl (by rw [he.1]; rfl)
  | started pc hm =>
    rw [pc] at he
    refine hr.emit rfl (by rw [pc]; rfl) rfl ?_
    simp [Observer.step, Run.observer, pc, MainPc.result?, he.1, phaseOf, chunksOf]
  | @recv m q pc queue =>
    have hcap : c.captureOutput = true := hl.path true (by rw [pc]; rfl)
    have hin := hc hcap
    rw [pc] at he hin
    obtain ⟨s, seq, bs, rfl⟩ := m.exists_eq_makeMsg
    obtain ⟨rfl, hpos, hle⟩ := (hin.2 s).1.next queue rfl
    refine hr.emit rfl (by rw [pc]; rfl) rfl ?_
    rw [Observer.step_makeMsg, Run.observer_of_running (by rw [pc]; rfl),
      Run.observer_of_running rfl, phaseOf_concat _ (by cases s <;> simp [Stream.makeMsg,
      ChunkMsg.event]), Running.phase he]
    simp [Observer.chunk, hcap, hpos, hle, length_chunksOf_concat]
  | @exited code t cn m pc hm =>
    rw [pc] at he
    refine hr.emit rfl (by rw [pc]; rfl) rfl ?_
    rw [Run.observer_of_running (by rw [pc]; rfl), Run.observer_of_running rfl, phaseOf_exited,
      he.1.phase]
    simp only [Observer.step, he.2.allows, true_and, chunksOf, List.filterMap_append]
    rw [if_pos (exitCode_of_reason code t cn)]
    simp
  | @dropLocals o pc =>
    rw [pc] at he
    cases harmed : r.armed with
    | true => exact hr.frame rfl (by rw [pc]; rfl)
    | false => exact hr.leave (o := o) rfl (by rw [pc]; rfl) rfl he
  | @guardReap o _ _ pc =>
    rw [pc] at he
    exact hr.leave (o := o) rfl (by rw [pc]; rfl) rfl he

/-- A step of the system does what the contract allows. -/
theorem RunMove.refines [DecidableEq ι] (h : RunMove env c i hd r l r') (hl : Lifecycle c r)
    (hc : c.captureOutput = true → CaptureAt i tr r r.main.stage) (hr : Refines c r) :
    Refines c r' := by
  cases h with
  | main h => exact h.refines hl hc hr
  | monitor h => exact hr.frame (by cases h <;> rfl) (by rw [h.main_eq])
  | wait | drain | proc | cancelKill => exact hr.frame rfl rfl
  | other => exact hr

/-- The lifecycle machine changes with the events. -/
theorem RunMove.machine_state [DecidableEq ι] (h : RunMove env c i hd r l r')
    (hl : Lifecycle c r) (hm : r.machine.state = (phaseOf r.events).state) :
    r'.machine.state = (phaseOf r'.events).state := by
  have he := hl.events
  cases h with
  | main h =>
    cases h with
    | started _ hok =>
      rw [(transition_eq_ok_iff.mp hok).1, phaseOf_concat _ (by simp)]
      rfl
    | exited _ hok =>
      rw [(transition_eq_ok_iff.mp hok).1, phaseOf_exited]
      rfl
    | @recv m q pc =>
      rw [pc] at he
      show r.machine.state = _
      rw [he.1, phaseOf_concat _ (by cases m <;> simp [ChunkMsg.event])]
      rfl
    | @joinWait res | @waitReturned res => cases res <;> exact hm
    | _ => exact hm
  | monitor h => cases h <;> exact hm
  | wait | drain | proc | cancelKill | other => exact hm

end Moves

/-! ### Whole runs -/

section Runs

variable [DecidableEq ι] {env : Env} {cfg : ι → RunConfig} {tr : List (Label ι)} {w : World ι}
  {i : ι}

theorem refines_of_reaches (h : Reaches env cfg tr w) (i : ι) : Refines (cfg i) (w.runs i) := by
  refine Lts.exec_invariant (P := fun _ w => Refines (cfg i) (w.runs i)) ?_ ?_ h
  · exact rfl
  · intro tr w l w' hw hr hstep
    exact (runMove_of_step hstep i).refines (lifecycle_of_reaches hw i)
      (fun hcap => captureAt_of_reaches hw hcap) hr

theorem machine_state_of_reaches (h : Reaches env cfg tr w) (i : ι) :
    (w.runs i).machine.state = (phaseOf (w.runs i).events).state := by
  refine Lts.exec_invariant
    (P := fun _ w => (w.runs i).machine.state = (phaseOf (w.runs i).events).state) ?_ ?_ h
  · exact rfl
  · intro tr w l w' hw hm hstep
    exact (runMove_of_step hstep i).machine_state (lifecycle_of_reaches hw i) hm

/-- **Every run refines the contract**: whatever the processes, the other threads and the OS do,
what has been seen of it is at every moment accepted, and leads to the state that its events and
its result tell; and the lifecycle machine inside is in the state that the events tell. -/
theorem run_refines_contract (h : Reaches env cfg tr w) (i : ι) :
    Lts.exec (Observer.step (cfg i)) .start (w.runs i).seen = some (w.runs i).observer ∧
      (w.runs i).machine.state = (phaseOf (w.runs i).events).state :=
  ⟨refines_of_reaches h i, machine_state_of_reaches h i⟩

/-- A captured run of which everything is seen but the return. -/
theorem capturedRun_refines_contract :
    ∃ w, Reaches Env.posix (fun _ => ⟨none, true, false⟩) (capturedRun.dropLast.dropLast) w ∧
      (w.runs ()).seen.length = 5 ∧ (w.runs ()).observer.phase = .exited .naturalExit ∧
      Lts.exec (Observer.step ⟨none, true, false⟩) .start (w.runs ()).seen =
        some (w.runs ()).observer := by
  obtain ⟨w, hw, hlen, hphase⟩ :
      ∃ w, Reaches Env.posix (fun _ => ⟨none, true, false⟩) (capturedRun.dropLast.dropLast) w ∧
        (w.runs ()).seen.length = 5 ∧ (w.runs ()).observer.phase = .exited .naturalExit :=
    Lts.exists_exec_of_any (by decide +kernel)
  exact ⟨w, hw, hlen, hphase, (run_refines_contract hw ()).1⟩

/-- **The ordering invariants hold of every run at every moment**, also of one that is still
under way and of one whose callback panics. -/
theorem run_is_ordered (h : Reaches env cfg tr w) (i : ι) : Ordered (cfg i) (w.runs i).seen :=
  ordered_of_exec (refines_of_reaches h i)

/-- A captured run in the callback for its second chunk. -/
theorem capturedRun_is_ordered :
    ∃ w, Reaches Env.posix (fun _ => ⟨none, true, false⟩) (capturedRun.take 28) w ∧
      (w.runs ()).main = .inChunk ∧ Ordered ⟨none, true, false⟩ (w.runs ()).seen := by
  obtain ⟨w, hw, hm⟩ : ∃ w, Reaches Env.posix (fun _ => ⟨none, true, false⟩)
      (capturedRun.take 28) w ∧ (w.runs ()).main = .inChunk :=
    Lts.exists_exec_of_any (by decide +kernel)
  exact ⟨w, hw, hm, run_is_ordered hw ()⟩

end Runs

end AerCore
