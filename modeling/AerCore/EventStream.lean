import AerCore.Capture
import Mathlib.Data.Int.DivMod

/-!
# Events across the language boundary

`aer_task_run` hands each event to a C callback as an `AerEvent`, whose chunk
bytes stay in native memory.  On the managed side `CallbackBridge.Dispatch`
copies them into an array and `AerTask.Dispatch` makes an `AerEventArgs` of the
whole.  The three translations together lose nothing as long as a chunk is
neither empty nor longer than an array can be, and the drain threads send no
other chunks.

## Main definitions

* `Delivery`, `Delivery.aerEvent` — an event during its callback, and `on_event`.
* `bridgeDispatch`, `taskDispatch` — the two managed translations.
* `AerEventArgs.readBack` — the event that the arguments tell of.
* `Sized` — the chunks on their way through a run are neither empty nor too long.

## Main results

* `raised_iff` — the round trip of one event, exactly when its chunk fits.
* `sized_of_reaches` — the invariant.
* `event_stream_survives` — **the events raised are the image of those emitted, one by one.**
-/

namespace AerCore

variable {ι : Type*}

/-! ### The C event -/

/-- The `AerEvent` of the C interface.  Its fields are as wide on one side as on the other, so
they are copied as they are; `data` is an address. -/
structure AerEvent where
  /-- Which fields count. -/
  kind : ℕ
  /-- The process, of a start. -/
  pid : ℕ
  /-- The exit code, of an exit. -/
  code : ℤ
  /-- The exit reason, of an exit. -/
  reason : ℕ
  /-- The number, of a chunk. -/
  seq : ℕ
  /-- The address of the bytes, of a chunk. -/
  data : ℕ
  /-- How many bytes there are. -/
  dataLen : ℕ
  deriving DecidableEq, Repr

/-- `reason as u32`. -/
def ExitReason.toU32 : ExitReason → ℕ
  | .naturalExit => 0
  | .timedOut => 1
  | .cancelRequested => 2

/-- The bytes an event carries. -/
def Event.bytes : Event → List UInt8
  | .stdoutChunk _ bs | .stderrChunk _ bs => bs
  | .started _ | .exited _ _ => []

/-- An event during its callback, with its bytes in memory. -/
structure Delivery where
  /-- The event. -/
  event : Event
  /-- Where its bytes are. -/
  addr : ℕ
  /-- The memory of the process. -/
  mem : ℕ → UInt8
  /-- The pointer of a `Vec` is not null. -/
  addr_ne : addr ≠ 0
  /-- The bytes stay where they are until the callback returns. -/
  holds : ∀ k (h : k < event.bytes.length), mem (addr + k) = event.bytes[k]

/-- `on_event` of `aer_task_run`. -/
def Delivery.aerEvent (d : Delivery) : AerEvent :=
  match d.event with
  | .started pid => ⟨0, pid, 0, 0, 0, 0, 0⟩
  | .exited code reason => ⟨1, 0, code, reason.toU32, 0, 0, 0⟩
  | .stdoutChunk seq bytes => ⟨2, 0, 0, 0, seq, d.addr, bytes.length⟩
  | .stderrChunk seq bytes => ⟨3, 0, 0, 0, seq, d.addr, bytes.length⟩

/-! ### `CallbackBridge.Dispatch` -/

/-- `(int)` of a `nuint`: the low 32 bits, with a sign. -/
def toInt32 (n : ℕ) : ℤ := Int.bmod n 4294967296

/-- `Array.MaxLength`. -/
def maxArrayLength : ℕ := 2147483591

/-- The length of `new byte[n]`, or nothing if that throws. -/
def newArray (n : ℤ) : Option ℕ :=
  if 0 ≤ n ∧ n ≤ maxArrayLength then some n.toNat else none

/-- `Marshal.Copy` of `length` bytes, or nothing if it throws. -/
def marshalCopy (mem : ℕ → UInt8) (source length : ℕ) : Option (List UInt8) :=
  if source = 0 then none else some ((List.range length).map fun k => mem (source + k))

/-- What `CallbackBridge.Dispatch` passes to its handler, or nothing if it throws. -/
def bridgeDispatch (mem : ℕ → UInt8) (evt : AerEvent) :
    Option (AerEvent × Option (List UInt8)) :=
  if (evt.kind = 2 ∨ evt.kind = 3) ∧ 0 < evt.dataLen then
    (newArray (toInt32 evt.dataLen)).bind fun n =>
      (marshalCopy mem evt.data n).map fun data => (evt, some data)
  else some (evt, none)

/-! ### `AerTask.Dispatch` -/

/-- `AerTaskEventKind`. -/
inductive AerTaskEventKind
  | started
  | stdoutChunk
  | stderrChunk
  | exited
  deriving DecidableEq, Repr

/-- `AerExitReason`; a number without a name is a value of it too. -/
inductive AerExitReason
  | natural
  | timedOut
  | cancelRequested
  | unnamed (value : ℕ)
  deriving DecidableEq, Repr

/-- `(AerExitReason)evt.Reason`. -/
def AerExitReason.ofValue : ℕ → AerExitReason
  | 0 => .natural
  | 1 => .timedOut
  | 2 => .cancelRequested
  | n => .unnamed n

/-- `AerEventArgs`, with the values of fields that are not set. -/
structure AerEventArgs where
  /-- Which kind of event this is. -/
  kind : AerTaskEventKind
  /-- The process. -/
  pid : ℕ := 0
  /-- The exit code. -/
  exitCode : ℤ := 0
  /-- The exit reason. -/
  exitReason : AerExitReason := .natural
  /-- The number of a chunk. -/
  seq : ℕ := 0
  /-- The bytes of a chunk. -/
  data : Option (List UInt8) := none
  deriving DecidableEq, Repr

/-- What `AerTask.Dispatch` raises: nothing, for an unknown kind. -/
def taskDispatch (evt : AerEvent) (data : Option (List UInt8)) : Option AerEventArgs :=
  if evt.kind = 0 then some { kind := .started, pid := evt.pid }
  else if evt.kind = 1 then
    some { kind := .exited, exitCode := evt.code, exitReason := .ofValue evt.reason }
  else if evt.kind = 2 then some { kind := .stdoutChunk, seq := evt.seq, data := data }
  else if evt.kind = 3 then some { kind := .stderrChunk, seq := evt.seq, data := data }
  else none

/-- What is raised for an event, or nothing if an exception leaves the callback. -/
def Delivery.raised (d : Delivery) : Option (List AerEventArgs) :=
  (bridgeDispatch d.mem d.aerEvent).map fun p => (taskDispatch p.1 p.2).toList

/-- What is raised for a sequence of events. -/
def raisedAll : List Delivery → Option (List AerEventArgs)
  | [] => some []
  | d :: ds => d.raised.bind fun args => (raisedAll ds).map fun rest => args ++ rest

/-! ### Reading back -/

/-- The reason that has the name. -/
def AerExitReason.readBack : AerExitReason → Option ExitReason
  | .natural => some .naturalExit
  | .timedOut => some .timedOut
  | .cancelRequested => some .cancelRequested
  | .unnamed _ => none

/-- The event that the arguments tell of. -/
def AerEventArgs.readBack (args : AerEventArgs) : Option Event :=
  match args.kind with
  | .started => some (.started args.pid)
  | .exited => args.exitReason.readBack.map (.exited args.exitCode)
  | .stdoutChunk => args.data.map (.stdoutChunk args.seq)
  | .stderrChunk => args.data.map (.stderrChunk args.seq)

/-- The arguments tell of the event, and have data exactly when it is a chunk. -/
structure Mirrors (args : AerEventArgs) (e : Event) : Prop where
  /-- Nothing of the event is lost. -/
  readBack : args.readBack = some e
  /-- The data are the bytes of a chunk. -/
  data : args.data = if e.isChunk then some e.bytes else none

/-- A chunk is not empty, and fits into an array. -/
def Event.Fits (e : Event) : Prop :=
  e.isChunk = true → 1 ≤ e.bytes.length ∧ e.bytes.length ≤ maxArrayLength

theorem readBack_ofValue (reason : ExitReason) :
    (AerExitReason.ofValue reason.toU32).readBack = some reason := by
  cases reason <;> rfl

/-! ### The round trip of one event -/

theorem toInt32_of_le {n : ℕ} (h : n ≤ maxArrayLength) : toInt32 n = n := by
  unfold maxArrayLength at h
  refine Int.bmod_eq_of_le ?_ ?_ <;> omega

theorem newArray_of_le {n : ℕ} (h : n ≤ maxArrayLength) : newArray n = some n := by
  simp [newArray, h]

theorem le_of_newArray {n : ℤ} {m : ℕ} (h : newArray n = some m) : m ≤ maxArrayLength := by
  unfold newArray at h
  split at h
  · next hn =>
    obtain rfl := Option.some.inj h
    omega
  · cases h

theorem marshalCopy_eq {mem : ℕ → UInt8} {source : ℕ} {bs : List UInt8} (hne : source ≠ 0)
    (hmem : ∀ k (h : k < bs.length), mem (source + k) = bs[k]) :
    marshalCopy mem source bs.length = some bs := by
  rw [marshalCopy, if_neg hne]
  refine congrArg some (List.ext_getElem (by simp) fun k hk hk' => ?_)
  rw [List.getElem_map, List.getElem_range]
  exact hmem k hk'

theorem length_of_marshalCopy {mem : ℕ → UInt8} {source n : ℕ} {bs : List UInt8}
    (h : marshalCopy mem source n = some bs) : bs.length = n := by
  unfold marshalCopy at h
  split at h
  · cases h
  · obtain rfl := Option.some.inj h
    simp

/-- A chunk that fits is copied as it is. -/
theorem bridgeDispatch_of_fits {mem : ℕ → UInt8} {evt : AerEvent} {bs : List UInt8}
    (hkind : evt.kind = 2 ∨ evt.kind = 3) (hlen : evt.dataLen = bs.length) (hpos : 1 ≤ bs.length)
    (hle : bs.length ≤ maxArrayLength) (hne : evt.data ≠ 0)
    (hmem : ∀ k (h : k < bs.length), mem (evt.data + k) = bs[k]) :
    bridgeDispatch mem evt = some (evt, some bs) := by
  have hcond : (evt.kind = 2 ∨ evt.kind = 3) ∧ 0 < evt.dataLen := ⟨hkind, by omega⟩
  rw [bridgeDispatch, if_pos hcond, hlen, toInt32_of_le hle, newArray_of_le hle, Option.bind_some,
    marshalCopy_eq hne hmem]
  rfl

/-- What is copied as it is fits. -/
theorem fits_of_bridgeDispatch {mem : ℕ → UInt8} {evt evt' : AerEvent} {bs : List UInt8}
    (h : bridgeDispatch mem evt = some (evt', some bs)) (hlen : evt.dataLen = bs.length) :
    1 ≤ bs.length ∧ bs.length ≤ maxArrayLength := by
  unfold bridgeDispatch at h
  split at h
  · next hcond =>
    obtain ⟨n, hn, h⟩ := Option.bind_eq_some_iff.mp h
    obtain ⟨data, hdata, h⟩ := Option.map_eq_some_iff.mp h
    obtain rfl : data = bs := by simpa using congrArg Prod.snd h
    rw [length_of_marshalCopy hdata]
    refine ⟨?_, le_of_newArray hn⟩
    rw [← length_of_marshalCopy hdata]
    omega
  · cases h

/-- The event that a chunk becomes. -/
theorem Delivery.aerEvent_of_isChunk {d : Delivery} (h : d.event.isChunk = true) :
    (d.aerEvent.kind = 2 ∨ d.aerEvent.kind = 3) ∧ d.aerEvent.dataLen = d.event.bytes.length ∧
      d.aerEvent.data = d.addr := by
  unfold Delivery.aerEvent
  cases he : d.event with
  | stdoutChunk seq bs => exact ⟨.inl rfl, rfl, rfl⟩
  | stderrChunk seq bs => exact ⟨.inr rfl, rfl, rfl⟩
  | started pid | exited code reason => rw [he] at h; cases h

/-- The bytes of a chunk that reach the handler of the bridge. -/
theorem bridgeDispatch_iff {d : Delivery} (h : d.event.isChunk = true) :
    bridgeDispatch d.mem d.aerEvent = some (d.aerEvent, some d.event.bytes) ↔ d.event.Fits := by
  obtain ⟨hkind, hlen, hdata⟩ := Delivery.aerEvent_of_isChunk h
  constructor
  · intro hb _
    exact fits_of_bridgeDispatch hb hlen
  · intro hf
    refine bridgeDispatch_of_fits hkind hlen (hf h).1 (hf h).2 ?_ ?_
    · rw [hdata]
      exact d.addr_ne
    · rw [hdata]
      exact d.holds

theorem evt_of_bridgeDispatch {mem : ℕ → UInt8} {evt evt' : AerEvent} {data : Option (List UInt8)}
    (h : bridgeDispatch mem evt = some (evt', data)) : evt' = evt := by
  unfold bridgeDispatch at h
  split at h
  · obtain ⟨n, -, h⟩ := Option.bind_eq_some_iff.mp h
    obtain ⟨bs, -, h⟩ := Option.map_eq_some_iff.mp h
    exact (congrArg Prod.fst h).symm
  · exact (congrArg Prod.fst (Option.some.inj h)).symm

/-- What is not a chunk passes without bytes. -/
theorem bridgeDispatch_of_not_isChunk {d : Delivery} (h : d.event.isChunk = false) :
    bridgeDispatch d.mem d.aerEvent = some (d.aerEvent, none) := by
  unfold Delivery.aerEvent bridgeDispatch
  cases he : d.event with
  | started pid | exited code reason => rfl
  | stdoutChunk seq bs | stderrChunk seq bs => rw [he] at h; cases h

/-- The arguments have the bytes that the bridge has copied. -/
theorem data_of_taskDispatch {evt : AerEvent} {data : Option (List UInt8)} {args : AerEventArgs}
    (h : taskDispatch evt data = some args) (hkind : evt.kind = 2 ∨ evt.kind = 3) :
    args.data = data := by
  unfold taskDispatch at h
  rcases hkind with hkind | hkind <;> rw [hkind] at h <;> obtain rfl := Option.some.inj h <;> rfl

/-- With the right bytes the arguments tell of the event. -/
theorem mirrors_taskDispatch (d : Delivery) :
    ∃ args, taskDispatch d.aerEvent (if d.event.isChunk then some d.event.bytes else none) =
      some args ∧ Mirrors args d.event := by
  unfold Delivery.aerEvent
  cases d.event with
  | started pid => exact ⟨_, rfl, rfl, rfl⟩
  | exited code reason =>
    refine ⟨_, rfl, ?_, rfl⟩
    show (AerExitReason.ofValue reason.toU32).readBack.map _ = _
    rw [readBack_ofValue]
    rfl
  | stdoutChunk seq bs | stderrChunk seq bs => exact ⟨_, rfl, rfl, rfl⟩

/-- **The round trip of one event.**  The arguments raised for an event tell of it exactly
when it fits. -/
theorem raised_iff (d : Delivery) :
    (∃ args, d.raised = some [args] ∧ Mirrors args d.event) ↔ d.event.Fits := by
  constructor
  · rintro ⟨args, hraised, hm⟩ hchunk
    obtain ⟨⟨evt, data⟩, hb, hargs⟩ := Option.map_eq_some_iff.mp hraised
    obtain rfl := evt_of_bridgeDispatch hb
    obtain ⟨hkind, -, -⟩ := Delivery.aerEvent_of_isChunk hchunk
    have hdispatch : taskDispatch d.aerEvent data = some args :=
      Option.toList_eq_singleton_iff.mp hargs
    have hdata : data = some d.event.bytes := by
      rw [← data_of_taskDispatch hdispatch hkind, hm.data, if_pos hchunk]
    rw [hdata] at hb
    exact (bridgeDispatch_iff hchunk).mp hb hchunk
  · intro hf
    obtain ⟨args, hargs, hm⟩ := mirrors_taskDispatch d
    refine ⟨args, ?_, hm⟩
    have hb : bridgeDispatch d.mem d.aerEvent =
        some (d.aerEvent, if d.event.isChunk then some d.event.bytes else none) := by
      cases hchunk : d.event.isChunk with
      | true => exact (bridgeDispatch_iff hchunk).mpr hf
      | false => exact bridgeDispatch_of_not_isChunk hchunk
    rw [Delivery.raised, hb, Option.map_some, hargs]
    rfl

/-! ### The chunks of a run -/

/-- A chunk of the event is neither empty nor larger than the buffer. -/
def Event.Small (e : Event) : Prop :=
  e.isChunk = true → 1 ≤ e.bytes.length ∧ e.bytes.length ≤ bufSize

theorem Event.Small.fits {e : Event} (h : e.Small) : e.Fits := by
  intro hchunk
  obtain ⟨hpos, hle⟩ := h hchunk
  exact ⟨hpos, Nat.le_trans hle (by decide)⟩

theorem Event.small_of_not_isChunk {e : Event} (h : e.isChunk = false) : e.Small := by
  intro hchunk
  rw [h] at hchunk
  cases hchunk

theorem small_makeMsg {s : Stream} {seq : ℕ} {bs : List UInt8} (hpos : 1 ≤ bs.length)
    (hle : bs.length ≤ bufSize) : (s.makeMsg seq bs).event.Small := by
  cases s <;> exact fun _ => ⟨hpos, hle⟩

/-- A message either waited already or is the one that was sent. -/
theorem ChunkChan.mem_send {ch : ChunkChan} {m m' : ChunkMsg} (h : m ∈ (ch.send m').queue) :
    m ∈ ch.queue ∨ m = m' := by
  unfold ChunkChan.send at h
  split at h
  · simpa using h
  · exact .inl h

/-- The chunks on their way are neither empty nor larger than the buffer, wherever they are. -/
structure Sized (r : Run) : Prop where
  /-- Those that have been delivered. -/
  events : ∀ e ∈ r.events, e.Small
  /-- Those in the channel. -/
  queue : ∀ m ∈ r.output.chunks.queue, m.event.Small
  /-- The one in the hands of a drain thread. -/
  sending : ∀ s bs, (r.output.drain s).pc = .sending bs → 1 ≤ bs.length ∧ bs.length ≤ bufSize

section Moves

variable {env : Env} {c : RunConfig} {i : ι} {hd hd' : CancelHandle ι} {r r' : Run}

/-- The run thread emits what it takes from the channel. -/
theorem MainMove.sized {a : MainAct} (h : MainMove env c i hd r a hd' r') (hs : Sized r) :
    Sized r' := by
  obtain ⟨hevents, hqueue, hsending⟩ := hs
  have hdrain := h.drain_eq
  have hsending' : ∀ s bs, (r'.output.drain s).pc = .sending bs →
      1 ≤ bs.length ∧ bs.length ≤ bufSize := by
    intro s
    rw [hdrain s]
    exact hsending s
  refine ⟨?_, ?_, hsending'⟩
  · intro e he
    cases h with
    | started | exited =>
      rcases List.mem_append.mp he with he | he
      · exact hevents e he
      · obtain rfl := List.mem_singleton.mp he
        exact Event.small_of_not_isChunk rfl
    | @recv m _ _ queue =>
      rcases List.mem_append.mp he with he | he
      · exact hevents e he
      · obtain rfl := List.mem_singleton.mp he
        exact hqueue m (by rw [queue]; exact List.mem_cons_self)
    | @joinWait res | @waitReturned res => cases res <;> exact hevents e he
    | _ => exact hevents e he
  · intro m hm
    cases h with
    | openChannel => cases hm
    | recv _ queue => exact hqueue m (by rw [queue]; exact List.mem_cons_of_mem _ hm)
    | @joinWait res | @waitReturned res => cases res <;> exact hqueue m hm
    | _ => exact hqueue m hm

/-- `wait` starts its drain threads with nothing in their hands. -/
theorem WaitMove.sized {a : WaitAct} {t : Tree} {o : Output} {x : Waiter}
    (h : WaitMove env c.captureOutput r.tree r.output r.waiter a t o x) (hs : Sized r) :
    Sized { r with tree := t, output := o, waiter := x } := by
  obtain ⟨hevents, hqueue, hsending⟩ := hs
  refine ⟨hevents, ?_, ?_⟩
  · intro m hm
    cases h with
    | startOut | startErr => exact hqueue m hm
    | startOutFails | startErrFails => exact hqueue m (by simpa using hm)
    | _ => exact hqueue m hm
  · intro s bs hpc
    cases h with
    | startOut =>
      cases s with
      | stdout => cases hpc
      | stderr => exact hsending .stderr bs hpc
    | startErr =>
      cases s with
      | stdout => exact hsending .stdout bs hpc
      | stderr => cases hpc
    | startOutFails | startErrFails => exact hsending s bs (by simpa using hpc)
    | _ => exact hsending s bs hpc

/-- A drain thread takes in hand what one `read` returned, and sends that. -/
theorem DrainMove.sized {s : Stream} {a : DrainAct} {t : Tree} {o : Output}
    (h : DrainMove c.captureOutput s r.tree r.output a t o) (hs : Sized r) :
    Sized { r with tree := t, output := o } := by
  obtain ⟨hevents, hqueue, hsending⟩ := hs
  refine ⟨hevents, ?_, ?_⟩
  · intro m hm
    cases h with
    | @send bs pc =>
      obtain ⟨hpos, hle⟩ := hsending s bs pc
      rcases ChunkChan.mem_send hm with hm | rfl
      · exact hqueue m hm
      · exact small_makeMsg hpos hle
    | readInterrupted =>
      refine hqueue m ?_
      split at hm
      · simpa using hm
      · exact hm
    | readBytes | readEof | readError => exact hqueue m (by simpa using hm)
  · intro s' bs hpc
    by_cases hs : s' = s
    · subst hs
      cases h with
      | @readBytes bs' _ pos le =>
        rw [Output.drain_setDrain_self] at hpc
        simp only at hpc
        split at hpc
        · cases hpc
          exact ⟨pos, le⟩
        · cases hpc
      | readEof | readError => simp at hpc
      | readInterrupted pc =>
        split at hpc
        · simp at hpc
        · rw [pc] at hpc
          cases hpc
      | send => simp at hpc
    · rw [h.drain_ne hs] at hpc
      exact hsending s' bs hpc

theorem sized_move [DecidableEq ι] {l : Label ι} (h : RunMove env c i hd r l r') (hs : Sized r) :
    Sized r' := by
  cases h with
  | main h => exact h.sized hs
  | monitor h => cases h <;> exact ⟨hs.events, hs.queue, hs.sending⟩
  | wait h => exact h.sized hs
  | drain h => exact h.sized hs
  | proc | cancelKill => exact ⟨hs.events, hs.queue, hs.sending⟩
  | other => exact hs

end Moves

/-! ### Whole runs -/

/-- The bytes of stream `s` that the arguments carry. -/
def AerEventArgs.dataOf? (s : Stream) (args : AerEventArgs) : Option (List UInt8) :=
  match s, args.kind with
  | .stdout, .stdoutChunk | .stderr, .stderrChunk => args.data
  | _, _ => none

theorem Mirrors.dataOf?_eq {args : AerEventArgs} {e : Event} (h : Mirrors args e) (s : Stream) :
    args.dataOf? s = (e.chunkOf? s).map Prod.snd := by
  have hread := h.readBack
  unfold AerEventArgs.readBack at hread
  unfold AerEventArgs.dataOf?
  cases hk : args.kind with
  | started =>
    rw [hk] at hread
    obtain rfl := Option.some.inj hread
    cases s <;> rfl
  | exited =>
    rw [hk] at hread
    obtain ⟨reason, -, rfl⟩ := Option.map_eq_some_iff.mp hread
    cases s <;> rfl
  | stdoutChunk | stderrChunk =>
    rw [hk] at hread
    obtain ⟨bs, hbs, rfl⟩ := Option.map_eq_some_iff.mp hread
    cases s <;> first | exact hbs | rfl

/-- The data of a stream are the bytes of its chunks. -/
theorem dataOf?_of_mirrors {raised : List AerEventArgs} {es : List Event}
    (h : List.Forall₂ Mirrors raised es) (s : Stream) :
    raised.filterMap (AerEventArgs.dataOf? s) = (chunksOf s es).map Prod.snd := by
  induction h with
  | nil => rfl
  | @cons args e raised es hm _ ih =>
    unfold chunksOf at ih ⊢
    rw [List.filterMap_cons, List.filterMap_cons, hm.dataOf?_eq s, ih]
    cases e.chunkOf? s <;> rfl

/-- Events that fit are raised one by one. -/
theorem raisedAll_of_fits {ds : List Delivery} (h : ∀ d ∈ ds, d.event.Fits) :
    ∃ raised, raisedAll ds = some raised ∧
      List.Forall₂ Mirrors raised (ds.map Delivery.event) := by
  induction ds with
  | nil => exact ⟨[], rfl, .nil⟩
  | cons d ds ih =>
    obtain ⟨args, hargs, hm⟩ := (raised_iff d).mpr (h d List.mem_cons_self)
    obtain ⟨raised, hraised, hall⟩ := ih fun d' hd' => h d' (List.mem_cons_of_mem _ hd')
    refine ⟨args :: raised, ?_, .cons hm hall⟩
    rw [raisedAll, hargs, Option.bind_some, hraised]
    rfl

/-- In every reachable world every chunk of a run is neither empty nor too large. -/
theorem sized_of_reaches [DecidableEq ι] {env : Env} {cfg : ι → RunConfig} {tr : List (Label ι)}
    {w : World ι} (h : Reaches env cfg tr w) (i : ι) : Sized (w.runs i) := by
  refine Lts.exec_invariant (P := fun _ w => Sized (w.runs i)) ?_ ?_ h
  · refine ⟨fun e he => ?_, fun m hm => ?_, fun s bs hpc => ?_⟩
    · cases he
    · cases hm
    · cases s <;> cases hpc
  · intro tr w l w' _ ih hstep
    exact sized_move (runMove_of_step hstep i) ih

/-- **The event stream survives the language boundary.**  Wherever the bytes of its events lie,
the arguments raised for a run tell of its events one by one, in order; chunks, and nothing
else, have data, and the data of each stream are the bytes of its chunks. -/
theorem event_stream_survives [DecidableEq ι] {env : Env} {cfg : ι → RunConfig}
    {tr : List (Label ι)} {w : World ι} (h : Reaches env cfg tr w) (i : ι) (ds : List Delivery)
    (hds : ds.map Delivery.event = (w.runs i).events) :
    ∃ raised, raisedAll ds = some raised ∧ List.Forall₂ Mirrors raised (w.runs i).events ∧
      ∀ s, (raised.filterMap (AerEventArgs.dataOf? s)).flatten =
        ((chunksOf s (w.runs i).events).map Prod.snd).flatten := by
  have hfits : ∀ d ∈ ds, d.event.Fits := by
    intro d hd
    refine ((sized_of_reaches h i).events d.event ?_).fits
    rw [← hds]
    exact List.mem_map_of_mem hd
  obtain ⟨raised, hraised, hall⟩ := raisedAll_of_fits hfits
  rw [hds] at hall
  exact ⟨raised, hraised, hall, fun s => congrArg List.flatten (dataOf?_of_mirrors hall s)⟩

/-- The event with its bytes at address 1. -/
def Delivery.ofEvent (e : Event) : Delivery where
  event := e
  addr := 1
  mem k := e.bytes.getD (k - 1) 0
  addr_ne := Nat.one_ne_zero
  holds k h := by simp [h]

theorem map_event_ofEvent (es : List Event) :
    (es.map Delivery.ofEvent).map Delivery.event = es := by
  rw [List.map_map]
  exact List.map_id es

/-- What is raised for the run that reads from both streams. -/
theorem capturedRun_event_stream :
    ∃ w : World Unit, Reaches Env.posix (fun _ => ⟨none, true, false⟩) capturedRun w ∧
      raisedAll ((w.runs ()).events.map Delivery.ofEvent) =
        some [{ kind := .started, pid := 7 },
          { kind := .stderrChunk, seq := 0, data := some [9] },
          { kind := .stdoutChunk, seq := 0, data := some [1, 2] },
          { kind := .stdoutChunk, seq := 1, data := some [3] },
          { kind := .exited, exitCode := 0, exitReason := .natural }] ∧
      ∃ raised, raisedAll ((w.runs ()).events.map Delivery.ofEvent) = some raised ∧
        List.Forall₂ Mirrors raised (w.runs ()).events ∧
        ∀ s, (raised.filterMap (AerEventArgs.dataOf? s)).flatten =
          ((chunksOf s (w.runs ()).events).map Prod.snd).flatten := by
  obtain ⟨w, hw, hev⟩ :
      ∃ w, Reaches Env.posix (fun _ => ⟨none, true, false⟩) capturedRun w ∧
        (w.runs ()).events = [.started 7, .stderrChunk 0 [9], .stdoutChunk 0 [1, 2],
          .stdoutChunk 1 [3], .exited 0 .naturalExit] := Lts.exists_exec_of_any (by decide +kernel)
  refine ⟨w, hw, ?_, event_stream_survives hw () _ (map_event_ofEvent _)⟩
  rw [hev]
  decide +kernel

end AerCore
