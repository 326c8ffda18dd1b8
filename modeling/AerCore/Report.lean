import AerCore.EventStream
import AerCore.LastError
import AerCore.Marshal
import AerCore.Precedence
import AerCore.Session

/-!
# What a managed run reports

A managed task is configured by calls of the C interface, run by one, and tells its owner what
has become of it in two ways: by the events that are raised while `aer_task_run` goes on, and by
the exception that is made of its code and of the last error message when it has returned.

The two agree, and both tell of the run that `run_impl` has made with the configuration that the
owner has given: a timeout is reported only if one was set, a chunk is raised only if capture was
asked for, and the message is that of this run.

## Main definitions

* `configured t hist` — the task as the setters that returned `Ok` have made it.
* `ErrorCode`, `AerException`, `runThrows` — codes and exceptions of the binding.
* `argsOf` — what is raised for an event.
* `ReportKind`, `Reports` — what the owner of a task is told.

## Main results

* `built_of_session` — a run has the configuration that its owner has given.
* `raisedAll_eq` — the events that are raised, exactly.
* `run_is_reported` — **a run that has returned is reported in one of six ways**.
-/

namespace AerCore

/-! ### What a run was configured with -/

/-- The calls of a session. -/
def SessionLabel.call? : SessionLabel → Option (Call × Ret)
  | .call c r => some (c, r)
  | .run _ | .cancel _ _ _ => none

/-- The task as the setters that returned `Ok` have made it of `t`. -/
def configured (t : Task) (hist : List SessionLabel) : Task :=
  (chain 0 (hist.filterMap SessionLabel.call?)).foldl Task.build t

@[simp] theorem configured_call (t : Task) (hist : List SessionLabel) (c : Call) (r : Ret) :
    configured t (hist ++ [.call c r]) =
      (okBuilder? 0 (c, r)).toList.foldl Task.build (configured t hist) := by
  simp [configured, SessionLabel.call?, List.filterMap_append]

theorem configured_of_not_call {t : Task} {hist : List SessionLabel} {l : SessionLabel}
    (h : l.call? = none) : configured t (hist ++ [l]) = configured t hist := by
  simp [configured, List.filterMap_append, h]

theorem configured_of_none {t : Task} {hist : List SessionLabel} {c : Call} {r : Ret}
    (h : okBuilder? 0 (c, r) = none) : configured t (hist ++ [.call c r]) = configured t hist := by
  rw [configured_call, h]
  rfl

/-- The task is as the setters have made it, and so is the run once it has been entered. -/
structure Built (t : Task) (hist : List SessionLabel) (s : Session) : Prop where
  /-- What is behind the pointer. -/
  inner : ∀ t' inner, s.ffi.task? 0 = some t' → t'.inner = some inner → inner = configured t hist
  /-- What the run has read. -/
  entered : ∀ c x, s.entered = some (c, x) → c.timeout = (configured t hist).timeout ∧
    c.captureOutput = (configured t hist).captureOutput
  /-- What has been spawned. -/
  spawns : s.ffi.spawns =
    if s.entered.isSome then [(0, (configured t hist).spawnRequest)] else []

section Built

variable {env : Env} {strerror : ℤ → String} {s s' : Session} {l : SessionLabel}
  {hist : List SessionLabel} {t : Task}

/-- Nothing is built, entered or spawned. -/
theorem Built.frame (hb : Built t hist s) (hl : configured t (hist ++ [l]) = configured t hist)
    (he : s'.entered = s.entered) (hs : s'.ffi.spawns = s.ffi.spawns)
    (kept : ∀ t' inner, s'.ffi.task? 0 = some t' → t'.inner = some inner →
      ∃ t₁, s.ffi.task? 0 = some t₁ ∧ t₁.inner = some inner) : Built t (hist ++ [l]) s' where
  inner t' inner ht' hinner := by
    obtain ⟨t₁, ht₁, hinner₁⟩ := kept t' inner ht' hinner
    rw [hl]
    exact hb.inner t₁ inner ht₁ hinner₁
  entered c x hx := by
    rw [hl]
    exact hb.entered c x (he ▸ hx)
  spawns := by
    rw [hl, hs, he]
    exact hb.spawns

/-- There is one task, whose number is 0. -/
theorem Remembers.eq_zero (hr : Remembers hist s) {p : ℕ} {t' : AerTask}
    (h : s.ffi.task? p = some t') : p = 0 := by
  have hp := Ffi.lt_of_task? h
  have := hr.single
  omega

theorem built_call {c : Call} {r : Ret} {ffi : Ffi} (hb : Built t hist s) (hr : Remembers hist s)
    (hnew : ∀ program args argsLen panic, c ≠ .new program args argsLen panic)
    (h : CallMove strerror s.ffi c ffi r) :
    Built t (hist ++ [.call c r])
      { s with ffi := ffi, entered := if r = .entered then s.reads c else s.entered } := by
  -- before the run is entered, the task has not been run
  have hnone : ∀ {t'}, s.ffi.task? 0 = some t' → t'.hasRun = false → s.entered = none := by
    intro t' ht' hfresh
    by_contra hne
    rw [hr.once hne 0 t' ht'] at hfresh
    cases hfresh
  have hsame : okBuilder? 0 (c, r) = none → r ≠ .entered → ffi.tasks = s.ffi.tasks →
      ffi.spawns = s.ffi.spawns → Built t (hist ++ [.call c r])
        { s with ffi := ffi, entered := if r = .entered then s.reads c else s.entered } := by
    intro hok hne htasks hspawns
    refine hb.frame (configured_of_none hok) (if_neg hne) hspawns fun t' inner ht' hinner => ?_
    refine ⟨t', ?_, hinner⟩
    simpa [Ffi.task?, htasks] using ht'
  cases h with
  | newInvalid | newPanics | newOk => exact absurd rfl (hnew _ _ _ _)
  | @setterOk _ p b t' inner args task fresh there =>
    obtain rfl := hr.eq_zero task
    have hok : okBuilder? 0 (c, .code .ok) = some b := by simp [okBuilder?, args]
    have hentered := hnone task fresh
    obtain rfl := hb.inner t' inner task there
    refine ⟨fun t₁ inner₁ ht₁ hinner₁ => ?_, fun c x hx => ?_, ?_⟩
    · obtain rfl : { t' with inner := some ((configured t hist).build b) } = t₁ := by
        simpa [Ffi.task?_setTask_self task] using ht₁
      simpa [hok] using hinner₁.symm
    · simp [hentered] at hx
    · simpa [hentered, Ffi.setTask, Ffi.clearLastError] using hb.spawns
  | @setterPanics _ p b e t' inner args task =>
    obtain rfl := hr.eq_zero task
    refine hb.frame (configured_of_none (okBuilder?_of_ne_ok (by simp))) (by simp) rfl ?_
    intro t₁ inner₁ ht₁ hinner₁
    obtain rfl : { t' with inner := none } = t₁ := by
      simpa [Ffi.task?_setTask_self task] using ht₁
    cases hinner₁
  | @makeOk p t' task =>
    obtain rfl := hr.eq_zero task
    refine hb.frame (configured_of_none (okBuilder?_of_ne_ok (by simp))) (by simp) rfl ?_
    intro t₁ inner₁ ht₁ hinner₁
    obtain rfl : { t' with cancel := some s.ffi.handles.length } = t₁ :=
      Option.some.inj ((Ffi.task?_setTask_self task _).symm.trans ht₁)
    exact ⟨t', task, hinner₁⟩
  | @runGone p t' task fresh gone =>
    obtain rfl := hr.eq_zero task
    refine hb.frame (configured_of_none (okBuilder?_of_ne_ok (by simp))) (by simp) rfl ?_
    intro t₁ inner₁ ht₁ hinner₁
    obtain rfl : { t' with hasRun := true } = t₁ :=
      Option.some.inj ((Ffi.task?_setTask_self task _).symm.trans ht₁)
    exact ⟨t', task, hinner₁⟩
  | @runEnters p t' inner task fresh there =>
    obtain rfl := hr.eq_zero task
    have hentered := hnone task fresh
    have hspawns := hb.spawns
    rw [hentered] at hspawns
    obtain rfl := hb.inner t' inner task there
    have hl : configured t (hist ++ [.call (.run (some 0)) .entered]) = configured t hist :=
      configured_of_none (okBuilder?_of_ne_ok (by simp))
    have hreads : s.reads (.run (some 0)) = some (⟨(configured t hist).timeout,
        (configured t hist).captureOutput, t'.cancel.isSome⟩, t'.cancel) := by
      simp [Session.reads, task, AerTask.reads, there]
    refine ⟨fun t₁ inner₁ ht₁ hinner₁ => ?_, fun c x hx => ?_, ?_⟩
    · obtain rfl : { t' with hasRun := true } = t₁ :=
        Option.some.inj ((Ffi.task?_setTask_self task _).symm.trans ht₁)
      rw [hl]
      exact hb.inner t' inner₁ task hinner₁
    · simp only [if_true, hreads, Option.some.injEq, Prod.mk.injEq] at hx
      obtain ⟨rfl, -⟩ := hx
      rw [hl]
      exact ⟨rfl, rfl⟩
    · simp [hl, hreads, hspawns]
  | @taskFree p t' task =>
    obtain rfl := hr.eq_zero task
    refine hb.frame (configured_of_none (okBuilder?_of_ne_ok (by simp))) (by simp) rfl ?_
    intro t₁ inner₁ ht₁
    simp [Ffi.task?, List.getElem?_set_self (Ffi.lt_of_task? task)] at ht₁
  | setterNull | setterLate | setterInvalid | setterGone | makeNull | makePanics | cancelNull
  | cancelPanics | cancelFreeNull | cancelFree | runNull | runLate | returnsPanic | taskFreeNull =>
    exact hsame (okBuilder?_of_ne_ok (by simp)) (by simp) rfl rfl
  | cancelOk | returnsOk | returnsError =>
    exact hsame (okBuilder?_of_not_setter rfl) (by simp) rfl rfl

theorem built_move (h : SessionMove env strerror s l s') (hr : Remembers hist s)
    (hb : Built t hist s) : Built t (hist ++ [l]) s' := by
  cases h with
  | call admits h =>
    exact built_call hb hr (Session.not_new_of_admits admits) (callMove_of_call h)
  | run | cancel =>
    exact hb.frame (configured_of_not_call rfl) rfl rfl fun t' inner ht' hinner =>
      ⟨t', ht', hinner⟩

/-- **A run has the configuration that its owner has given**, and so has its process. -/
theorem built_of_session
    (h : Lts.exec (Session.step env strerror) (Session.init env t) hist = some s) :
    Built t hist s := by
  refine Lts.exec_invariant (P := Built t) ?_ ?_ h
  · refine ⟨fun t' inner ht' hinner => ?_, ?_, rfl⟩
    · obtain rfl : ⟨some t, false, none⟩ = t' := Option.some.inj ht'
      exact (Option.some.inj hinner).symm
    · intro c x hx
      cases hx
  · intro hist s l s' hs hb hstep
    exact built_move (sessionMove_of_step hstep) (remembers_of_session hs) hb

/-- `aer_task_run` is under way only when the run has been entered. -/
theorem entered_of_running
    (h : Lts.exec (Session.step env strerror) (Session.init env t) hist = some s)
    (hr : s.ffi.running ≠ []) : ∃ c x, s.entered = some (c, x) := by
  suffices hne : s.entered ≠ none by
    obtain ⟨⟨c, x⟩, hx⟩ := Option.ne_none_iff_exists'.mp hne
    exact ⟨c, x, hx⟩
  refine Lts.exec_invariant (P := fun _ s => s.ffi.running ≠ [] → s.entered ≠ none) ?_ ?_ h hr
  · exact fun hne => absurd rfl hne
  · intro hist s l s' _ ih hstep
    cases sessionMove_of_step hstep with
    | call admits h =>
      cases callMove_of_call h with
      | runEnters task fresh there => simp [Session.reads, task, AerTask.reads, there]
      | returnsOk inside | returnsError inside | returnsPanic inside =>
        exact fun _ => ih (by simp [inside])
      | _ => exact ih
    | run | cancel => exact ih

end Built

theorem Call.setter?_of_not_reports {c : Call} (h : c.reports = false) : c.setter? = none := by
  cases c <;> first | rfl | cases h

/-- The number of a code. -/
def AerErrorCode.toInt32 : AerErrorCode → ℤ
  | .ok => 0
  | .nullPointer => 1
  | .spawnFailed => 2
  | .waitFailed => 3
  | .invalidStateTransition => 4
  | .timedOut => 5
  | .killFailed => 6
  | .alreadyRun => 7
  | .panic => 8
  | .cancelled => 9
  | .invalidArgument => 10

namespace Managed

/-! ### Codes and exceptions -/

/-- `AerErrorCode` of the binding; a number without a name is a value of it too. -/
inductive ErrorCode
  | named (code : AerErrorCode)
  | unnamed (value : ℤ)
  deriving DecidableEq, Repr

/-- The value with the given number. -/
def ErrorCode.ofInt32 : ℤ → ErrorCode
  | 0 => .named .ok
  | 1 => .named .nullPointer
  | 2 => .named .spawnFailed
  | 3 => .named .waitFailed
  | 4 => .named .invalidStateTransition
  | 5 => .named .timedOut
  | 6 => .named .killFailed
  | 7 => .named .alreadyRun
  | 8 => .named .panic
  | 9 => .named .cancelled
  | 10 => .named .invalidArgument
  | n => .unnamed n

theorem ofInt32_toInt32 (code : AerErrorCode) : ErrorCode.ofInt32 code.toInt32 = .named code := by
  cases code <;> rfl

/-- `DefaultMessageFor`. -/
def defaultMessageFor : ErrorCode → String
  | .named .ok => "No error."
  | .named .nullPointer => "A required native argument was null."
  | .named .spawnFailed => "The operating system refused to spawn the child process."
  | .named .waitFailed => "Waiting on the child process failed."
  | .named .invalidStateTransition => "The task was used in an invalid state."
  | .named .timedOut => "The task was killed because it exceeded its configured timeout."
  | .named .killFailed => "Killing the child process failed."
  | .named .alreadyRun => "The task has already been run."
  | .named .panic => "The native library encountered an unexpected internal error."
  | .named .cancelled => "The task was cancelled."
  | .named .invalidArgument => "A string argument failed native validation."
  | .unnamed value => "AER operation failed with error code " ++ toString value ++ "."

/-- `AerException` with its code and message, and its two subclasses. -/
inductive AerException
  | base (code : ErrorCode) (message : ClrString)
  | timeout (message : ClrString)
  | cancel (message : ClrString)
  deriving DecidableEq

/-- `ErrorCode`; the subclasses hand theirs to the base class. -/
def AerException.errorCode : AerException → ErrorCode
  | .base code _ => code
  | .timeout _ => .named .timedOut
  | .cancel _ => .named .cancelled

/-- A text as a string of the CLR. -/
def literal (text : String) : ClrString := Utf16.encode text.toList

/-- `PtrToStringUTF8` of a text: it reads up to the first NUL. -/
def ptrToStringUTF8 (text : String) : ClrString :=
  Utf16.encode (text.toList.takeWhile (· ≠ '\x00'))

/-- `GetLastErrorMessage`: a null pointer is a null reference. -/
def getLastErrorMessage (s : Ffi) : Option ClrString := s.lastError.map ptrToStringUTF8

/-- `GetLastErrorMessage() ?? DefaultMessageFor(code)`. -/
def message (s : Ffi) (code : ErrorCode) : ClrString :=
  (getLastErrorMessage s).getD (literal (defaultMessageFor code))

/-- `BuildRunException`. -/
def buildRunException (s : Ffi) (code : ErrorCode) : AerException :=
  match code with
  | .named .timedOut => .timeout (message s code)
  | .named .cancelled => .cancel (message s code)
  | _ => .base code (message s code)

/-- What `RunCore` throws when `aer_task_run` has returned the code, if it throws. -/
def runThrows (s : Ffi) (code : AerErrorCode) : Option AerException :=
  let result := ErrorCode.ofInt32 code.toInt32
  if result ≠ .named .ok then some (buildRunException s result) else none

/-- The message for a text that has been handed to `set_last_error`: it is lost if it has a NUL. -/
def messageFor (text : String) (code : AerErrorCode) : ClrString :=
  literal (if '\x00' ∈ text.toList then defaultMessageFor (.named code) else text)

/-- The exception has the code of `aer_task_run`. -/
theorem errorCode_of_runThrows {s : Ffi} {code : AerErrorCode} {e : AerException}
    (h : runThrows s code = some e) : e.errorCode = .named code := by
  rw [runThrows, ofInt32_toInt32] at h
  obtain ⟨-, h⟩ := Option.ite_none_right_eq_some.mp h
  cases h
  cases code <;> rfl

/-- Without a NUL nothing is cut off. -/
theorem ptrToStringUTF8_of_not_mem {text : String} (h : '\x00' ∉ text.toList) :
    ptrToStringUTF8 text = literal text := by
  rw [ptrToStringUTF8, takeWhile_ne_of_not_mem h]
  rfl

theorem messageFor_of_not_mem {text : String} (h : '\x00' ∉ text.toList) (code : AerErrorCode) :
    messageFor text code = literal text := by
  rw [messageFor, if_neg h]

/-- The message after `set_last_error`. -/
theorem message_setLastError {s s' : Ffi} {text : String}
    (h : s'.lastError = (s.setLastError text).lastError) (code : AerErrorCode) :
    message s' (.named code) = messageFor text code := by
  rw [message, getLastErrorMessage, h, Ffi.setLastError, messageFor]
  split
  · rfl
  · next hnul => exact ptrToStringUTF8_of_not_mem hnul

/-! ### What is raised for an event -/

/-- The arguments raised for an event. -/
def argsOf : Event → AerEventArgs
  | .started pid => { kind := .started, pid := pid }
  | .stdoutChunk seq bytes => { kind := .stdoutChunk, seq := seq, data := some bytes }
  | .stderrChunk seq bytes => { kind := .stderrChunk, seq := seq, data := some bytes }
  | .exited code reason =>
      { kind := .exited, exitCode := code, exitReason := .ofValue reason.toU32 }

theorem raised_eq {d : Delivery} (h : d.event.Fits) : d.raised = some [argsOf d.event] := by
  have hbridge : bridgeDispatch d.mem d.aerEvent =
      some (d.aerEvent, if d.event.isChunk then some d.event.bytes else none) := by
    cases hchunk : d.event.isChunk with
    | true => exact (bridgeDispatch_iff hchunk).mpr h
    | false => exact bridgeDispatch_of_not_isChunk hchunk
  rw [Delivery.raised, hbridge, Option.map_some]
  unfold Delivery.aerEvent
  cases d.event <;> rfl

/-- Events that fit are raised one by one, as they are. -/
theorem raisedAll_eq {ds : List Delivery} (h : ∀ d ∈ ds, d.event.Fits) :
    raisedAll ds = some ((ds.map Delivery.event).map argsOf) := by
  induction ds with
  | nil => rfl
  | cons d ds ih =>
    have htail := ih fun d' hd' => h d' (List.mem_cons_of_mem _ hd')
    rw [raisedAll, raised_eq (h d List.mem_cons_self), htail]
    rfl

/-! ### What the owner of a task is told -/

/-- Chunks of captured output with their bytes, and none if capture was not asked for. -/
def ChunkArgs (t : Task) (raised : List AerEventArgs) : Prop :=
  (∀ args ∈ raised, (args.kind = .stdoutChunk ∨ args.kind = .stderrChunk) ∧
    ∃ bytes, args.data = some bytes ∧ bytes ≠ []) ∧ (t.captureOutput = false → raised = [])

/-- The ways in which a run is reported. -/
inductive ReportKind
  | spawnFailed
  | natural
  | timedOut
  | cancelled
  | waitFailed
  | panicked
  deriving DecidableEq, Repr

/-- What is raised and thrown for a run of `t` with the cancel handle `handle`, if there is one;
`root` is the root as the OS left it. -/
def Reports (strerror : ℤ → String) (t : Task) (handle : Option ℕ) (root : Root)
    (raised : List AerEventArgs) (thrown : Option AerException) : ReportKind → Prop
  | .spawnFailed => raised = [] ∧ ∃ e : IoError, thrown = some (.base (.named .spawnFailed)
      (messageFor ("process spawn failed: " ++ e.display strerror) .spawnFailed))
  | .natural => thrown = none ∧ ∃ pid chunks status, ChunkArgs t chunks ∧ root = .reaped status ∧
      raised = { kind := .started, pid := pid } :: (chunks ++
        [{ kind := .exited, exitCode := status.getD (-1), exitReason := .natural }])
  | .timedOut => t.timeout.isSome = true ∧
      thrown = some (.timeout (literal "process timed out and was killed")) ∧
      ∃ pid chunks, ChunkArgs t chunks ∧ raised = { kind := .started, pid := pid } :: (chunks ++
        [{ kind := .exited, exitCode := -1, exitReason := .timedOut }])
  | .cancelled => handle.isSome = true ∧
      thrown = some (.cancel (literal "process was cancelled")) ∧
      ∃ pid chunks, ChunkArgs t chunks ∧ raised = { kind := .started, pid := pid } :: (chunks ++
        [{ kind := .exited, exitCode := -1, exitReason := .cancelRequested }])
  | .waitFailed => (∃ e : IoError, thrown = some (.base (.named .waitFailed)
      (messageFor ("process wait failed: " ++ e.display strerror) .waitFailed))) ∧
      ∃ pid chunks, ChunkArgs t chunks ∧ raised = { kind := .started, pid := pid } :: chunks
  | .panicked => ∃ e, thrown = some (.base (.named .panic) (messageFor (formatPanic e) .panic))

section Reports

variable {env : Env} {strerror : ℤ → String} {t : Task} {handle : Option ℕ} {root : Root}
  {raised : List AerEventArgs} {thrown : Option AerException} {k k' : ReportKind}

/-- A report is of one kind. -/
theorem Reports.unique (h : Reports strerror t handle root raised thrown k)
    (h' : Reports strerror t handle root raised thrown k') : k' = k := by
  cases k <;> cases k' <;> simp only [Reports] at h h' <;> grind

theorem chunkArgs_map {c : RunConfig} {events : List Event} (h : ChunksOnly c events)
    (hsmall : ∀ e ∈ events, e.Small) (hc : c.captureOutput = t.captureOutput) :
    ChunkArgs t (events.map argsOf) := by
  refine ⟨fun args hargs => ?_, fun hoff => ?_⟩
  · obtain ⟨e, he, rfl⟩ := List.mem_map.mp hargs
    have hchunk := h.1 e he
    have hne : e.bytes ≠ [] := List.length_pos_iff.mp (hsmall e he hchunk).1
    cases e with
    | stdoutChunk seq bytes => exact ⟨.inl rfl, bytes, rfl, hne⟩
    | stderrChunk seq bytes => exact ⟨.inr rfl, bytes, rfl, hne⟩
    | started | exited => cases hchunk
  · rw [h.2 (hc.trans hoff)]
    rfl

/-- What is thrown for the outcome of `run_impl`, as the message of `aer_task_run` tells it. -/
def thrownFor (strerror : ℤ → String) : RunOutcome → Option AerException
  | .returned (.ok ()) => none
  | .returned (.error .timedOut) => some (.timeout (literal "process timed out and was killed"))
  | .returned (.error .cancelled) => some (.cancel (literal "process was cancelled"))
  | .returned (.error e) =>
      some (.base (.named e.code) (messageFor (e.display strerror) e.code))
  | .panicked e => some (.base (.named .panic) (messageFor (formatPanic e) .panic))

/-- Nothing that is released between `aer_task_run` and `aer_last_error_message` changes the
message. -/
theorem lastError_of_frees {s s' : Ffi} {frees : List (Call × Ret)}
    (hfrees : ∀ l ∈ frees, l.1.reports = false)
    (h : Lts.exec (Ffi.step strerror) s frees = some s') : s'.lastError = s.lastError := by
  induction frees generalizing s with
  | nil =>
    obtain rfl : s = s' := by simpa using h
    rfl
  | cons l frees ih =>
    obtain ⟨m, hm, h⟩ := Option.bind_eq_some_iff.mp h
    have hl := hfrees l List.mem_cons_self
    have hkeep : m.lastError = s.lastError := by
      obtain ⟨c, r⟩ := l
      cases callMove_of_call (call_of_step hm) with
      | cancelFreeNull | cancelFree | taskFreeNull | taskFree => rfl
      | setterNull args | setterLate args | setterInvalid args | setterGone args | setterOk args
      | setterPanics args => simp [Call.setter?_of_not_reports hl] at args
      | _ => cases hl
    rw [← hkeep]
    exact ih (fun l' hl' => hfrees l' (List.mem_cons_of_mem _ hl')) h

/-- **The exception is that of the run**, with the message that its `aer_task_run` has set. -/
theorem runThrows_of_return {s s' s₁ : Ffi} {o : RunOutcome} {code : AerErrorCode}
    (h : call strerror s (.runReturns o) = some (s', .code code))
    (hkeep : s₁.lastError = s'.lastError) : runThrows s₁ code = thrownFor strerror o := by
  rw [runThrows, ofInt32_toInt32]
  cases callMove_of_call h with
  | returnsOk => rfl
  | @returnsError p running e inside =>
    have hmessage := message_setLastError (s := { s with running := running }) hkeep
    cases e with
    | timedOut =>
      have hnul : '\x00' ∉ ("process timed out and was killed" : String).toList := by simp
      have htext := (hmessage .timedOut).trans (messageFor_of_not_mem hnul .timedOut)
      exact congrArg (fun m => some (AerException.timeout m)) htext
    | cancelled =>
      have hnul : '\x00' ∉ ("process was cancelled" : String).toList := by simp
      have htext := (hmessage .cancelled).trans (messageFor_of_not_mem hnul .cancelled)
      exact congrArg (fun m => some (AerException.cancel m)) htext
    | _ => simp [AerError.code, buildRunException, hmessage, thrownFor]
  | @returnsPanic p running e inside =>
    have hmessage := message_setLastError (s := { s with running := running }) hkeep .panic
    simp [buildRunException, hmessage, thrownFor]
  | setterNull args | setterLate args | setterInvalid args | setterGone args | setterOk args
  | setterPanics args => cases args

/-- A run of `run_impl` is reported, as what it has left with. -/
theorem reports_of_seenAs {c : RunConfig} {events : List Event} {o : RunOutcome} {o' : Outcome}
    (hseen : o'.seenAs o = true) (htimeout : c.timeout = t.timeout)
    (hcapture : c.captureOutput = t.captureOutput) (hcancel : c.cancel = handle.isSome)
    (hsmall : ∀ e ∈ events, e.Small)
    (hshape : ∀ res, o' = .ret res → ∃ k, HasShape c root events res k) :
    ∃ k, Reports strerror t handle root (events.map argsOf) (thrownFor strerror o) k := by
  cases o' with
  | unwound =>
    cases o with
    | returned => cases hseen
    | panicked e => exact ⟨.panicked, e, rfl⟩
  | ret res =>
    cases o with
    | panicked => cases hseen
    | returned res' =>
      obtain rfl : res = res' := of_decide_eq_true hseen
      obtain ⟨k, hk⟩ := hshape res rfl
      have hchunks : ∀ pid chunks rest, events = .started pid :: (chunks ++ rest) →
          ChunksOnly c chunks → ChunkArgs t (chunks.map argsOf) := by
        rintro pid chunks rest rfl hc
        exact chunkArgs_map hc (fun e he => hsmall e (by simp [he])) hcapture
      cases k with
      | spawnFailed =>
        obtain ⟨rfl, e, rfl⟩ := hk
        exact ⟨.spawnFailed, rfl, e, rfl⟩
      | natural =>
        obtain ⟨pid, chunks, status, hc, hroot, hevents, rfl⟩ := hk
        refine ⟨.natural, rfl, pid, chunks.map argsOf, status, ?_, hroot, ?_⟩
        · exact hchunks _ _ _ hevents hc
        · rw [hevents, List.map_cons, List.map_append]
          rfl
      | timedOut =>
        obtain ⟨hon, pid, chunks, hc, hevents, rfl⟩ := hk
        refine ⟨.timedOut, htimeout ▸ hon, rfl, pid, chunks.map argsOf, ?_, ?_⟩
        · exact hchunks _ _ _ hevents hc
        · rw [hevents, List.map_cons, List.map_append]
          rfl
      | cancelled =>
        obtain ⟨hon, pid, chunks, hc, hevents, rfl⟩ := hk
        refine ⟨.cancelled, hcancel ▸ hon, rfl, pid, chunks.map argsOf, ?_, ?_⟩
        · exact hchunks _ _ _ hevents hc
        · rw [hevents, List.map_cons, List.map_append]
          rfl
      | waitFailed =>
        obtain ⟨pid, chunks, e, hc, rfl, rfl⟩ := hk
        refine ⟨.waitFailed, ⟨e, rfl⟩, pid, chunks.map argsOf, ?_, rfl⟩
        exact hchunks pid chunks [] (by rw [List.append_nil]) hc

/-- **A run that has returned is reported in one of six ways.**  When the `aer_task_run` of a
session has returned, one process has been asked for, as the setters have made the task, and
what is raised and thrown tells of the run in exactly one way: a timeout only if one was set, a
cancellation only if a cancel handle was made, chunks only with capture, and the root's own
code where nothing is thrown.  An exception has the code that was returned.  Releases between
the return and the question for the message change nothing. -/
theorem run_is_reported {hist : List SessionLabel} {s : Session} {o : RunOutcome}
    {code : AerErrorCode} {ds : List Delivery} {frees : List (Call × Ret)} {ffi : Ffi}
    (h : Lts.exec (Session.step env strerror) (Session.init env t)
      (hist ++ [.call (.runReturns o) (.code code)]) = some s)
    (hds : ds.map Delivery.event = s.run.events)
    (hfrees : ∀ l ∈ frees, l.1.reports = false)
    (hffi : Lts.exec (Ffi.step strerror) s.ffi frees = some ffi) :
    s.ffi.spawns = [(0, (configured t hist).spawnRequest)] ∧
      raisedAll ds = some (s.run.events.map argsOf) ∧
      (∀ e, runThrows ffi code = some e → e.errorCode = .named code) ∧
      ∃! kind, Reports strerror (configured t hist) (lastMade hist) s.run.tree.root
        (s.run.events.map argsOf) (runThrows ffi code) kind := by
  obtain ⟨s₀, hs, hreturn⟩ := Lts.exec_concat_eq_some.mp h
  cases sessionMove_of_step hreturn with
  | @call _ _ ffi' admits hcall =>
    -- the run that returns is the one that was entered, with what the setters have made
    have hinside : s₀.ffi.running ≠ [] ∧ ffi'.spawns = s₀.ffi.spawns := by
      cases callMove_of_call hcall with
      | returnsOk inside | returnsError inside | returnsPanic inside =>
        exact ⟨by simp [inside], rfl⟩
      | setterNull args | setterLate args | setterInvalid args | setterGone args | setterOk args
      | setterPanics args => cases args
    obtain ⟨c, x, hentered⟩ := entered_of_running hs hinside.1
    have hbuilt := built_of_session hs
    obtain ⟨htimeout, hcapture⟩ := hbuilt.entered c x hentered
    obtain ⟨rfl, hcancel⟩ := (remembers_of_session hs).run c x hentered
    have hreach := (projects_of_session hs).reaches c _ (.inr hentered)
    have hsmall := (sized_of_reaches hreach ()).events
    -- it has left `run_impl`, and is reported as it has left
    obtain ⟨o', hfin, hseen⟩ := finished_of_admits admits
    obtain ⟨kind, hkind⟩ : ∃ kind, Reports strerror (configured t hist) (lastMade hist)
        s₀.run.tree.root (s₀.run.events.map argsOf) (thrownFor strerror o) kind :=
      reports_of_seenAs hseen htimeout hcapture hcancel hsmall fun res hres =>
        hasShape_of_returned (w := s₀.world _) (i := ()) hreach (hres ▸ hfin)
    have hthrows := runThrows_of_return hcall (lastError_of_frees hfrees hffi)
    refine ⟨?_, ?_, fun e => errorCode_of_runThrows, kind, ?_, fun kind' hkind' => ?_⟩
    · exact hinside.2.trans (by simp [hbuilt.spawns, hentered])
    · rw [raisedAll_eq fun d hd => (hsmall _ (hds ▸ List.mem_map_of_mem hd)).fits, hds]
    · rw [hthrows]
      exact hkind
    · rw [hthrows] at hkind'
      exact hkind.unique hkind'

end Reports

/-- A timeout is set, a cancel handle is made, and the run is cancelled before its deadline. -/
def reportedRun : List SessionLabel :=
  [.call (.withTimeout (some 0) 10 none) (.code .ok),
    .call (.makeCancelHandle (some 0) none) (.handle (some 0)), .call (.run (some 0)) .entered] ++
  cancelThenTimeout.map (onHandle 0)

/-- The timeout is what is reported, also when the task is freed before the message is asked
for. -/
theorem reportedRun_is_reported :
    ∃ s ffi, Lts.exec (Session.step Env.posix fun _ => "")
        (Session.init Env.posix (Task.new "sh" []))
        (reportedRun ++ [.call (.runReturns (.returned (.error .timedOut))) (.code .timedOut)]) =
          some s ∧
      Lts.exec (Ffi.step fun _ => "") s.ffi [(.taskFree (some 0), .void)] = some ffi ∧
      s.run.events.map argsOf = [{ kind := .started, pid := 7 },
        { kind := .exited, exitCode := -1, exitReason := .timedOut }] ∧
      runThrows ffi .timedOut = some (.timeout (literal "process timed out and was killed")) ∧
      ∃! kind, Reports (fun _ => "") (configured (Task.new "sh" []) reportedRun)
        (lastMade reportedRun) s.run.tree.root (s.run.events.map argsOf)
        (runThrows ffi .timedOut) kind := by
  obtain ⟨s, hs, hffi, hevents⟩ : ∃ s, Lts.exec (Session.step Env.posix fun _ => "")
      (Session.init Env.posix (Task.new "sh" []))
      (reportedRun ++ [.call (.runReturns (.returned (.error .timedOut))) (.code .timedOut)]) =
        some s ∧
      (Lts.exec (Ffi.step fun _ => "") s.ffi [(.taskFree (some 0), .void)]).any
        (fun ffi => decide (runThrows ffi .timedOut =
          some (.timeout (literal "process timed out and was killed")))) = true ∧
      s.run.events = [.started 7, .exited (-1) .timedOut] :=
    Lts.exists_exec_of_any (by decide +kernel)
  obtain ⟨ffi, hffi, hthrows⟩ := Lts.exists_exec_of_any hffi
  have hreported := run_is_reported hs (map_event_ofEvent _) (by decide) hffi
  exact ⟨s, ffi, hs, hffi, by rw [hevents]; rfl, hthrows, hreported.2.2.2⟩

end Managed

end AerCore
