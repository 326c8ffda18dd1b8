import AerCore.Lts
import AerCore.Machine
import AerCore.Task

/-!
# The C interface

The functions of `ffi.rs`, as one thread calls them.  A pointer argument is null or names
something the library has handed out; a pointer to something that has been freed is outside
the contract, and a call with one is not a step.  `aer_task_run` is two steps, its entry and
its return, so that the callback may make calls in between.

A call may panic inside the code it wraps.  Whether it does, and with which payload, is part
of the call, as the outcome of `run_impl` is part of the return from `aer_task_run`.

## Main definitions

* `CStr`, `CStr.toStr` — C strings and their decoding.
* `AerErrorCode`, `mapAerError`, `formatPanic` — codes and messages.
* `AerTask`, `Ffi` — what the library keeps for its caller.
* `setter` — the common frame of the five setters.
* `Call`, `Ret`, `call` — the calls, and what they return.
* `Ffi.step` — the interface as a step function of calls and their answers.
* `CallMove` — what a call can do, branch by branch.

## Main results

* `callMove_of_call` — every call is a move.
-/

namespace AerCore

/-! ### Strings -/

/-- A null-terminated C string: the bytes before the first NUL. -/
structure CStr where
  /-- The bytes. -/
  bytes : List UInt8
  /-- None of them is NUL. -/
  noNul : 0 ∉ bytes

/-- `CStr::to_str`: the string, if the bytes are valid UTF-8. -/
def CStr.toStr (s : CStr) : Option String := String.fromUTF8? ⟨s.bytes.toArray⟩

/-! ### Errors -/

/-- Error codes returned by the functions of the interface. -/
inductive AerErrorCode
  | ok
  | nullPointer
  | spawnFailed
  | waitFailed
  | invalidStateTransition
  | timedOut
  | killFailed
  | alreadyRun
  | panic
  | cancelled
  | invalidArgument
  deriving DecidableEq, Repr

/-- The payload of a panic: a text, or something that is none. -/
inductive PanicPayload
  | text (s : String)
  | other
  deriving DecidableEq, Repr

/-- `format_panic`. -/
def formatPanic : PanicPayload → String
  | .text s => "panic: " ++ s
  | .other => "panic: unknown panic payload"

/-- `Display` of `State`. -/
def State.display : State → String
  | .created => "Created"
  | .running => "Running"
  | .exited => "Exited"

/-- `Display` of `io::Error`; the description of an `errno` is the platform's. -/
def IoError.display (strerror : ℤ → String) : IoError → String
  | .os errno => strerror errno ++ " (os error " ++ toString errno ++ ")"
  | .other message => message

/-- `Display` of `AerError`. -/
def AerError.display (strerror : ℤ → String) : AerError → String
  | .spawnFailed e => "process spawn failed: " ++ e.display strerror
  | .waitFailed e => "process wait failed: " ++ e.display strerror
  | .invalidStateTransition source target =>
      "invalid state transition: " ++ source.display ++ " → " ++ target.display
  | .timedOut => "process timed out and was killed"
  | .killFailed e => "kill attempt failed: " ++ e.display strerror
  | .cancelled => "process was cancelled"

/-- The code of an error. -/
def AerError.code : AerError → AerErrorCode
  | .spawnFailed _ => .spawnFailed
  | .waitFailed _ => .waitFailed
  | .invalidStateTransition _ _ => .invalidStateTransition
  | .timedOut => .timedOut
  | .killFailed _ => .killFailed
  | .cancelled => .cancelled

/-! ### What the library keeps -/

/-- What a task pointer points to. -/
structure AerTask where
  /-- The task; taken out while a builder works on it. -/
  inner : Option Task
  /-- `aer_task_run` has been called. -/
  hasRun : Bool
  /-- The cancel handle made last, by its number. -/
  cancel : Option ℕ
  deriving DecidableEq, Repr

/-- The state behind the interface, as one thread sees it. -/
structure Ffi where
  /-- The tasks that were created, by number; `none` once freed. -/
  tasks : List (Option AerTask)
  /-- The cancel handles that were created, by number: whether they are still there. -/
  handles : List Bool
  /-- The tasks this thread is running, innermost first. -/
  running : List ℕ
  /-- `LAST_ERROR`. -/
  lastError : Option String
  /-- What has been passed to `PlatformProcess::spawn` and for which task, oldest first. -/
  spawns : List (ℕ × SpawnRequest)
  deriving DecidableEq, Repr

namespace Ffi

/-- Nothing has been created. -/
def init : Ffi := ⟨[], [], [], none, []⟩

/-- The task a pointer points to. -/
def task? (s : Ffi) (p : ℕ) : Option AerTask := s.tasks[p]?.join

/-- The state with another task behind the pointer. -/
def setTask (s : Ffi) (p : ℕ) (t : AerTask) : Ffi := { s with tasks := s.tasks.set p (some t) }

/-- `set_last_error`: a text with a NUL inside makes no C string. -/
def setLastError (s : Ffi) (msg : String) : Ffi :=
  { s with lastError := if '\x00' ∈ msg.toList then none else some msg }

/-- `clear_last_error`. -/
def clearLastError (s : Ffi) : Ffi := { s with lastError := none }

end Ffi

/-- `map_aer_error`. -/
def mapAerError (strerror : ℤ → String) (s : Ffi) (e : AerError) : Ffi × AerErrorCode :=
  (s.setLastError (e.display strerror), e.code)

/-! ### Creating a task -/

/-- Upper bound on `args_len`. -/
def maxArgsLen : ℕ := 65536

/-- The task that `aer_task_new` makes of its arguments, if they are valid. -/
def newTask (program : Option CStr) (args : Option (ℕ → Option CStr)) (argsLen : ℕ) :
    Option Task :=
  match program with
  | none => none
  | some program =>
      match program.toStr with
      | none => none
      | some programStr =>
          if maxArgsLen < argsLen then none
          else if 0 < argsLen ∧ args.isNone = true then none
          else
            -- the loop returns at the first null or invalid argument
            ((List.range argsLen).mapM fun i => (args.bind (· i)).bind CStr.toStr).map
              (Task.new programStr)

/-- `aer_task_new`. -/
def aerTaskNew (s : Ffi) (program : Option CStr) (args : Option (ℕ → Option CStr)) (argsLen : ℕ)
    (panic : Option PanicPayload) : Ffi × Option ℕ :=
  match newTask program args argsLen, panic with
  | none, _ => (s, none)
  | some _, some e => (s.setLastError (formatPanic e), none)
  | some t, none =>
      ({ s with tasks := s.tasks ++ [some ⟨some t, false, none⟩] }, some s.tasks.length)

/-! ### The setters -/

/-- What a setter makes of its arguments other than the task. -/
inductive Arg
  /-- One of the pointers is null. -/
  | null
  /-- One of the strings does not pass. -/
  | invalid
  /-- The builder to be called. -/
  | ok (b : Builder)
  deriving DecidableEq, Repr

/-- The common frame of the setters: null pointers, then `has_run`, then the strings; the task
is taken out, handed to the builder and put back. -/
def setter (s : Ffi) (task : Option ℕ) (arg : Arg) (panic : Option PanicPayload) :
    Option (Ffi × AerErrorCode) :=
  match task, arg with
  | none, _ | some _, .null => some (s, .nullPointer)
  | some p, .invalid =>
      (s.task? p).map fun t => (s, if t.hasRun then .alreadyRun else .invalidArgument)
  | some p, .ok b =>
      (s.task? p).map fun t =>
        if t.hasRun then (s, .alreadyRun)
        else
          -- `take()` leaves `None` behind
          match t.inner, panic with
          | none, _ => (s, .alreadyRun)
          | some inner, none =>
              ((s.setTask p { t with inner := some (inner.build b) }).clearLastError, .ok)
          | some _, some e =>
              ((s.setTask p { t with inner := none }).setLastError (formatPanic e), .panic)

/-- The arguments of `aer_task_set_env`. -/
def envArg (key value : Option CStr) : Arg :=
  match key, value with
  | some key, some value =>
      match key.toStr, value.toStr with
      | some keyStr, some valueStr =>
          if keyStr = "" ∨ '=' ∈ keyStr.toList then .invalid else .ok (.env keyStr valueStr)
      | _, _ => .invalid
  | _, _ => .null

/-- The argument of `aer_task_set_cwd`. -/
def cwdArg (path : Option CStr) : Arg :=
  match path with
  | none => .null
  | some path =>
      match path.toStr with
      | none => .invalid
      | some pathStr => if pathStr = "" then .invalid else .ok (.cwd pathStr)

/-- `aer_task_with_timeout`. -/
def aerTaskWithTimeout (s : Ffi) (task : Option ℕ) (timeoutMs : UInt64)
    (panic : Option PanicPayload) : Option (Ffi × AerErrorCode) :=
  setter s task (.ok (.timeout timeoutMs.toNat)) panic

/-- `aer_task_with_capture_output`. -/
def aerTaskWithCaptureOutput (s : Ffi) (task : Option ℕ) (capture : Bool)
    (panic : Option PanicPayload) : Option (Ffi × AerErrorCode) :=
  setter s task (.ok (.captureOutput capture)) panic

/-- `aer_task_set_env`. -/
def aerTaskSetEnv (s : Ffi) (task : Option ℕ) (key value : Option CStr)
    (panic : Option PanicPayload) : Option (Ffi × AerErrorCode) :=
  setter s task (envArg key value) panic

/-- `aer_task_set_clear_env`. -/
def aerTaskSetClearEnv (s : Ffi) (task : Option ℕ) (clear : Bool)
    (panic : Option PanicPayload) : Option (Ffi × AerErrorCode) :=
  setter s task (.ok (.clearEnv clear)) panic

/-- `aer_task_set_cwd`. -/
def aerTaskSetCwd (s : Ffi) (task : Option ℕ) (path : Option CStr)
    (panic : Option PanicPayload) : Option (Ffi × AerErrorCode) :=
  setter s task (cwdArg path) panic

/-! ### Cancel handles -/

/-- `aer_task_make_cancel_handle`: the task remembers the handle it has made last. -/
def aerTaskMakeCancelHandle (s : Ffi) (task : Option ℕ) (panic : Option PanicPayload) :
    Option (Ffi × Option ℕ) :=
  match task with
  | none => some (s, none)
  | some p =>
      (s.task? p).map fun t =>
        match panic with
        | some e => (s.setLastError (formatPanic e), none)
        | none =>
            ({ s.setTask p { t with cancel := some s.handles.length } with
                handles := s.handles ++ [true] },
              some s.handles.length)

/-- `aer_cancel`.  What `cancel()` does to the handle and to the run is not seen here. -/
def aerCancel (s : Ffi) (handle : Option ℕ) (panic : Option PanicPayload) :
    Option (Ffi × AerErrorCode) :=
  match handle with
  | none => some (s, .nullPointer)
  | some h =>
      if s.handles[h]? = some true then
        some (match panic with
          | none => (s.clearLastError, .ok)
          | some e => (s.setLastError (formatPanic e), .panic))
      else none

/-- `aer_cancel_free`. -/
def aerCancelFree (s : Ffi) (handle : Option ℕ) : Option Ffi :=
  match handle with
  | none => some s
  | some h =>
      if s.handles[h]? = some true then some { s with handles := s.handles.set h false } else none

/-! ### Running a task -/

/-- How a call of `run_impl` ends, as `aer_task_run` sees it. -/
inductive RunOutcome
  | returned (res : Except AerError Unit)
  | panicked (e : PanicPayload)
  deriving DecidableEq

/-- The beginning of `aer_task_run`: a code if it returns at once, and none if it goes on into
`run_impl`, whose first act is the spawn. -/
def aerTaskRun (s : Ffi) (task : Option ℕ) : Option (Ffi × Option AerErrorCode) :=
  match task with
  | none => some (s, some .nullPointer)
  | some p =>
      (s.task? p).map fun t =>
        if t.hasRun then (s, some .alreadyRun)
        else
          let s' := s.setTask p { t with hasRun := true }
          match t.inner with
          | none => (s', some .alreadyRun)
          | some inner =>
              ({ s' with
                  running := p :: s.running
                  spawns := s.spawns ++ [(p, inner.spawnRequest)] }, none)

/-- The end of the innermost `aer_task_run`, for the outcome of its `run_impl`. -/
def aerTaskRunReturns (strerror : ℤ → String) (s : Ffi) (o : RunOutcome) :
    Option (Ffi × AerErrorCode) :=
  match s.running with
  | [] => none
  | _ :: running =>
      let s' := { s with running := running }
      some (match o with
        | .returned (.ok ()) => (s'.clearLastError, .ok)
        | .returned (.error e) => mapAerError strerror s' e
        | .panicked e => (s'.setLastError (formatPanic e), .panic))

/-- `aer_task_free`. -/
def aerTaskFree (s : Ffi) (task : Option ℕ) : Option Ffi :=
  match task with
  | none => some s
  | some p => (s.task? p).map fun _ => { s with tasks := s.tasks.set p none }

/-! ### Calls -/

/-- The calls of the interface, with the panic inside them if there is one. -/
inductive Call
  | new (program : Option CStr) (args : Option (ℕ → Option CStr)) (argsLen : ℕ)
      (panic : Option PanicPayload)
  | withTimeout (task : Option ℕ) (timeoutMs : UInt64) (panic : Option PanicPayload)
  | withCaptureOutput (task : Option ℕ) (capture : Bool) (panic : Option PanicPayload)
  | setEnv (task : Option ℕ) (key value : Option CStr) (panic : Option PanicPayload)
  | setClearEnv (task : Option ℕ) (clear : Bool) (panic : Option PanicPayload)
  | setCwd (task : Option ℕ) (path : Option CStr) (panic : Option PanicPayload)
  | makeCancelHandle (task : Option ℕ) (panic : Option PanicPayload)
  | cancel (handle : Option ℕ) (panic : Option PanicPayload)
  | cancelFree (handle : Option ℕ)
  | run (task : Option ℕ)
  | runReturns (o : RunOutcome)
  | taskFree (task : Option ℕ)

/-- What a call returns. -/
inductive Ret
  | code (c : AerErrorCode)
  /-- A task pointer, or null. -/
  | task (p : Option ℕ)
  /-- A handle pointer, or null. -/
  | handle (h : Option ℕ)
  /-- `aer_task_run` has entered `run_impl` and has not returned. -/
  | entered
  /-- Nothing: the function is `void`. -/
  | void
  deriving DecidableEq, Repr

/-- A call, and what it returns. -/
def call (strerror : ℤ → String) (s : Ffi) : Call → Option (Ffi × Ret)
  | .new program args argsLen panic =>
      some ((aerTaskNew s program args argsLen panic).map id Ret.task)
  | .withTimeout task timeoutMs panic =>
      (aerTaskWithTimeout s task timeoutMs panic).map (Prod.map id .code)
  | .withCaptureOutput task capture panic =>
      (aerTaskWithCaptureOutput s task capture panic).map (Prod.map id .code)
  | .setEnv task key value panic => (aerTaskSetEnv s task key value panic).map (Prod.map id .code)
  | .setClearEnv task clear panic =>
      (aerTaskSetClearEnv s task clear panic).map (Prod.map id .code)
  | .setCwd task path panic => (aerTaskSetCwd s task path panic).map (Prod.map id .code)
  | .makeCancelHandle task panic =>
      (aerTaskMakeCancelHandle s task panic).map (Prod.map id .handle)
  | .cancel handle panic => (aerCancel s handle panic).map (Prod.map id .code)
  | .cancelFree handle => (aerCancelFree s handle).map fun s' => (s', .void)
  | .run task =>
      (aerTaskRun s task).map fun
        | (s', some c) => (s', .code c)
        | (s', none) => (s', .entered)
  | .runReturns o => (aerTaskRunReturns strerror s o).map (Prod.map id .code)
  | .taskFree task => (aerTaskFree s task).map fun s' => (s', .void)

/-- One step of the interface: a call, and the answer it gets. -/
def Ffi.step (strerror : ℤ → String) (s : Ffi) (l : Call × Ret) : Option Ffi :=
  (call strerror s l.1).bind fun (s', r) => if r = l.2 then some s' else none

/-! ### What a call can do -/

/-- The task, the other arguments and the panic of a setter. -/
def Call.setter? : Call → Option (Option ℕ × Arg × Option PanicPayload)
  | .withTimeout task timeoutMs panic => some (task, .ok (.timeout timeoutMs.toNat), panic)
  | .withCaptureOutput task capture panic => some (task, .ok (.captureOutput capture), panic)
  | .setEnv task key value panic => some (task, envArg key value, panic)
  | .setClearEnv task clear panic => some (task, .ok (.clearEnv clear), panic)
  | .setCwd task path panic => some (task, cwdArg path, panic)
  | _ => none

variable {strerror : ℤ → String} {s s' : Ffi} {c : Call} {r : Ret}

theorem call_of_setter {task : Option ℕ} {arg : Arg} {panic : Option PanicPayload}
    (h : c.setter? = some (task, arg, panic)) :
    call strerror s c = (setter s task arg panic).map (Prod.map id Ret.code) := by
  cases c with
  | withTimeout | withCaptureOutput | setEnv | setClearEnv | setCwd => cases h; rfl
  | _ => cases h

/-- What a call can do, branch by branch. -/
inductive CallMove (strerror : ℤ → String) (s : Ffi) : Call → Ffi → Ret → Prop
  | newInvalid {program args argsLen panic} (invalid : newTask program args argsLen = none) :
      CallMove strerror s (.new program args argsLen panic) s (.task none)
  | newPanics {program args argsLen t e} (valid : newTask program args argsLen = some t) :
      CallMove strerror s (.new program args argsLen (some e)) (s.setLastError (formatPanic e))
        (.task none)
  | newOk {program args argsLen t} (valid : newTask program args argsLen = some t) :
      CallMove strerror s (.new program args argsLen none)
        { s with tasks := s.tasks ++ [some ⟨some t, false, none⟩] } (.task (some s.tasks.length))
  | setterNull {c task arg panic} (args : c.setter? = some (task, arg, panic))
      (null : task = none ∨ arg = .null) : CallMove strerror s c s (.code .nullPointer)
  | setterLate {c p arg panic t} (args : c.setter? = some (some p, arg, panic))
      (given : arg ≠ .null) (task : s.task? p = some t) (ran : t.hasRun = true) :
      CallMove strerror s c s (.code .alreadyRun)
  | setterInvalid {c p panic t} (args : c.setter? = some (some p, .invalid, panic))
      (task : s.task? p = some t) (fresh : t.hasRun = false) :
      CallMove strerror s c s (.code .invalidArgument)
  | setterGone {c p b panic t} (args : c.setter? = some (some p, .ok b, panic))
      (task : s.task? p = some t) (fresh : t.hasRun = false) (gone : t.inner = none) :
      CallMove strerror s c s (.code .alreadyRun)
  | setterOk {c p b t inner} (args : c.setter? = some (some p, .ok b, none))
      (task : s.task? p = some t) (fresh : t.hasRun = false) (there : t.inner = some inner) :
      CallMove strerror s c
        (s.setTask p { t with inner := some (inner.build b) }).clearLastError (.code .ok)
  | setterPanics {c p b e t inner} (args : c.setter? = some (some p, .ok b, some e))
      (task : s.task? p = some t) (fresh : t.hasRun = false) (there : t.inner = some inner) :
      CallMove strerror s c
        ((s.setTask p { t with inner := none }).setLastError (formatPanic e)) (.code .panic)
  | makeNull {panic} : CallMove strerror s (.makeCancelHandle none panic) s (.handle none)
  | makePanics {p t e} (task : s.task? p = some t) :
      CallMove strerror s (.makeCancelHandle (some p) (some e)) (s.setLastError (formatPanic e))
        (.handle none)
  | makeOk {p t} (task : s.task? p = some t) :
      CallMove strerror s (.makeCancelHandle (some p) none)
        { s.setTask p { t with cancel := some s.handles.length } with
          handles := s.handles ++ [true] }
        (.handle (some s.handles.length))
  | cancelNull {panic} : CallMove strerror s (.cancel none panic) s (.code .nullPointer)
  | cancelOk {h} (there : s.handles[h]? = some true) :
      CallMove strerror s (.cancel (some h) none) s.clearLastError (.code .ok)
  | cancelPanics {h e} (there : s.handles[h]? = some true) :
      CallMove strerror s (.cancel (some h) (some e)) (s.setLastError (formatPanic e))
        (.code .panic)
  | cancelFreeNull : CallMove strerror s (.cancelFree none) s .void
  | cancelFree {h} (there : s.handles[h]? = some true) :
      CallMove strerror s (.cancelFree (some h)) { s with handles := s.handles.set h false } .void
  | runNull : CallMove strerror s (.run none) s (.code .nullPointer)
  | runLate {p t} (task : s.task? p = some t) (ran : t.hasRun = true) :
      CallMove strerror s (.run (some p)) s (.code .alreadyRun)
  | runGone {p t} (task : s.task? p = some t) (fresh : t.hasRun = false)
      (gone : t.inner = none) :
      CallMove strerror s (.run (some p)) (s.setTask p { t with hasRun := true })
        (.code .alreadyRun)
  | runEnters {p t inner} (task : s.task? p = some t) (fresh : t.hasRun = false)
      (there : t.inner = some inner) :
      CallMove strerror s (.run (some p))
        { s.setTask p { t with hasRun := true } with
          running := p :: s.running
          spawns := s.spawns ++ [(p, inner.spawnRequest)] } .entered
  | returnsOk {p running} (inside : s.running = p :: running) :
      CallMove strerror s (.runReturns (.returned (.ok ())))
        (Ffi.clearLastError { s with running := running }) (.code .ok)
  | returnsError {p running e} (inside : s.running = p :: running) :
      CallMove strerror s (.runReturns (.returned (.error e)))
        (Ffi.setLastError { s with running := running } (e.display strerror)) (.code e.code)
  | returnsPanic {p running e} (inside : s.running = p :: running) :
      CallMove strerror s (.runReturns (.panicked e))
        (Ffi.setLastError { s with running := running } (formatPanic e)) (.code .panic)
  | taskFreeNull : CallMove strerror s (.taskFree none) s .void
  | taskFree {p t} (task : s.task? p = some t) :
      CallMove strerror s (.taskFree (some p)) { s with tasks := s.tasks.set p none } .void

theorem callMove_of_setter {task : Option ℕ} {arg : Arg} {panic : Option PanicPayload}
    {code : AerErrorCode} (hc : c.setter? = some (task, arg, panic))
    (h : setter s task arg panic = some (s', code)) : CallMove strerror s c s' (.code code) := by
  cases task with
  | none => cases h; exact .setterNull hc (.inl rfl)
  | some p =>
    cases arg with
    | null => cases h; exact .setterNull hc (.inr rfl)
    | invalid =>
      obtain ⟨⟨inner, ran, handle⟩, ht, h⟩ := Option.map_eq_some_iff.mp h
      cases ran with
      | true => cases h; exact .setterLate hc (by simp) ht rfl
      | false => cases h; exact .setterInvalid hc ht rfl
    | ok b =>
      obtain ⟨⟨inner, ran, handle⟩, ht, h⟩ := Option.map_eq_some_iff.mp h
      cases ran with
      | true => cases h; exact .setterLate hc (by simp) ht rfl
      | false =>
        cases inner with
        | none => cases h; exact .setterGone hc ht rfl rfl
        | some inner =>
          cases panic with
          | none => cases h; exact .setterOk hc ht rfl rfl
          | some e => cases h; exact .setterPanics hc ht rfl rfl

/-- Every call is a move. -/
theorem callMove_of_call (h : call strerror s c = some (s', r)) : CallMove strerror s c s' r := by
  cases hset : c.setter? with
  | some args =>
    obtain ⟨task, arg, panic⟩ := args
    rw [call_of_setter hset] at h
    obtain ⟨⟨s₁, code⟩, h₁, h⟩ := Option.map_eq_some_iff.mp h
    cases h
    exact callMove_of_setter hset h₁
  | none =>
    cases c with
    | withTimeout | withCaptureOutput | setEnv | setClearEnv | setCwd => cases hset
    | new program args argsLen panic =>
      simp only [call, aerTaskNew] at h
      cases hnew : newTask program args argsLen with
      | none => rw [hnew] at h; cases h; exact .newInvalid hnew
      | some t =>
        rw [hnew] at h
        cases panic with
        | none => cases h; exact .newOk hnew
        | some e => cases h; exact .newPanics hnew
    | makeCancelHandle task panic =>
      obtain ⟨⟨s₁, x⟩, h₁, h⟩ := Option.map_eq_some_iff.mp h
      cases h
      cases task with
      | none => cases h₁; exact .makeNull
      | some p =>
        obtain ⟨t, ht, h₁⟩ := Option.map_eq_some_iff.mp h₁
        cases panic with
        | none => cases h₁; exact .makeOk ht
        | some e => cases h₁; exact .makePanics ht
    | cancel handle panic =>
      obtain ⟨⟨s₁, x⟩, h₁, h⟩ := Option.map_eq_some_iff.mp h
      cases h
      cases handle with
      | none => cases h₁; exact .cancelNull
      | some k =>
        obtain ⟨hk, h₁⟩ := Option.ite_none_right_eq_some.mp h₁
        cases panic with
        | none => cases h₁; exact .cancelOk hk
        | some e => cases h₁; exact .cancelPanics hk
    | cancelFree handle =>
      obtain ⟨s₁, h₁, h⟩ := Option.map_eq_some_iff.mp h
      cases h
      cases handle with
      | none => cases h₁; exact .cancelFreeNull
      | some k =>
        obtain ⟨hk, h₁⟩ := Option.ite_none_right_eq_some.mp h₁
        cases h₁
        exact .cancelFree hk
    | run task =>
      obtain ⟨⟨s₁, x⟩, h₁, h⟩ := Option.map_eq_some_iff.mp h
      cases task with
      | none => cases h₁; cases h; exact .runNull
      | some p =>
        obtain ⟨⟨inner, ran, handle⟩, ht, h₁⟩ := Option.map_eq_some_iff.mp h₁
        cases ran with
        | true => cases h₁; cases h; exact .runLate ht rfl
        | false =>
          cases inner with
          | none => cases h₁; cases h; exact .runGone ht rfl rfl
          | some inner => cases h₁; cases h; exact .runEnters ht rfl rfl
    | runReturns o =>
      obtain ⟨⟨s₁, x⟩, h₁, h⟩ := Option.map_eq_some_iff.mp h
      cases h
      simp only [aerTaskRunReturns] at h₁
      split at h₁
      · cases h₁
      · next inside =>
        cases o with
        | returned res =>
          cases res with
          | ok u => cases h₁; exact .returnsOk inside
          | error e => cases h₁; exact .returnsError inside
        | panicked e => cases h₁; exact .returnsPanic inside
    | taskFree task =>
      obtain ⟨s₁, h₁, h⟩ := Option.map_eq_some_iff.mp h
      cases h
      cases task with
      | none => cases h₁; exact .taskFreeNull
      | some p =>
        obtain ⟨t, ht, h₁⟩ := Option.map_eq_some_iff.mp h₁
        cases h₁
        exact .taskFree ht

theorem call_of_step {l : Call × Ret} (h : Ffi.step strerror s l = some s') :
    call strerror s l.1 = some (s', l.2) := by
  obtain ⟨⟨s₁, r₁⟩, h₁, h⟩ := Option.bind_eq_some_iff.mp h
  obtain ⟨hr, h⟩ := Option.ite_none_right_eq_some.mp h
  cases h
  rw [h₁, hr]

end AerCore
