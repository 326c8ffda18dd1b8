import AerCore.Ffi
import AerCore.SafeHandle

/-!
# Managed tasks

The binding for .NET runs a task in `RunCore`: it makes a native cancel handle,
stores it in a field, registers a callback with the cancellation token that
passes the handle to `aer_cancel`, calls `aer_task_run`, and in the end undoes
all this.  `Dispose()` may be called meanwhile from other threads, and the source
of the token may cancel it from yet another one.

The native handles are `SafeHandle`s: the marshaller takes a reference before a
native call and gives it back after the call, and these are steps of their own.
`RunCore` and `Dispose()` may be called any number of times.

## Main definitions

* `RunCall`, `Shared`, `State` — one call of `RunCore`, the fields, and both together.
* `runStep`, `callbackStep`, `disposeStep`, `step` — the threads.
* `RunMove`, `CallbackMove`, `DisposeMove`, `CallMove`, `StateMove` — what a step does, branch
  by branch.

## Main results

* `callMove_of_step`, `stateMove_of_step` — every step is a move of each call of `RunCore`, and
  of the fields.
-/

namespace AerCore.Managed

open SafeHandle

variable {κ δ : Type*}

/-! ### One call of `RunCore` -/

/-- The exceptions that leave `RunCore`. -/
inductive RunException
  /-- `ObjectDisposedException`. -/
  | objectDisposed
  /-- `InvalidOperationException`: the instance has been run before. -/
  | invalidOperation
  /-- `AerException` or a subclass of it. -/
  | aer (code : AerErrorCode)
  deriving DecidableEq, Repr

/-- Where a call of `RunCore` stands. -/
inductive RunPc
  /-- It has not been made. -/
  | idle
  /-- `ThrowIfDisposed` has passed. -/
  | checked
  /-- The exchange of `hasRunFlag` was the first one. -/
  | entered
  /-- In `aer_task_make_cancel_handle`. -/
  | making
  /-- `localCancel` is a valid handle. -/
  | made
  /-- The field is set. -/
  | stored
  /-- `Register` runs the callback on this thread, the token being cancelled already. -/
  | inlined
  /-- `aer_task_run` comes next. -/
  | ready
  /-- In `aer_task_run`. -/
  | running
  /-- In the `finally` block, before `registration.Dispose()`. -/
  | unregister (res : Except RunException Unit)
  /-- Before `cancelHandle = null`. -/
  | clearField (res : Except RunException Unit)
  /-- Before `localCancel?.Dispose()`. -/
  | disposeLocal (res : Except RunException Unit)
  /-- It has ended. -/
  | finished (res : Except RunException Unit)
  deriving DecidableEq

/-- `aer_task_make_cancel_handle` has not returned. -/
def RunPc.beforeMade : RunPc → Bool
  | .idle | .checked | .entered | .making => true
  | _ => false

/-- `Register` has not been called. -/
def RunPc.beforeRegister : RunPc → Bool
  | .idle | .checked | .entered | .making | .made | .stored => true
  | _ => false

theorem RunPc.beforeRegister_of_beforeMade {pc : RunPc} (h : pc.beforeMade = true) :
    pc.beforeRegister = true := by
  cases pc <;> first | rfl | cases h

/-- It is in a native call on the task handle. -/
def RunPc.inNative : RunPc → Bool
  | .making | .running => true
  | _ => false

/-- `registration.Dispose()` has returned. -/
def RunPc.closing : RunPc → Bool
  | .clearField _ | .disposeLocal _ | .finished _ => true
  | _ => false

/-- Where the callback of the token stands. -/
inductive CallbackPc
  /-- It is not registered. -/
  | unregistered
  /-- It is registered. -/
  | pending
  /-- It has been called. -/
  | invoked
  /-- It is in `aer_cancel`, with a reference to the cancel handle. -/
  | calling
  /-- `aer_cancel` has been executed. -/
  | cancelled
  /-- It has returned. -/
  | returned
  /-- It has thrown `ObjectDisposedException`. -/
  | threw
  /-- It has been removed before it was called. -/
  | removed
  deriving DecidableEq, Repr

/-- It waits for the source, or for the reference to the handle. -/
def CallbackPc.waits : CallbackPc → Bool
  | .pending | .invoked => true
  | _ => false

/-- It holds a reference to the handle. -/
def CallbackPc.holds : CallbackPc → Bool
  | .calling | .cancelled => true
  | _ => false

/-- The calls that hold references to the cancel handle: there is only the one of the callback. -/
def CallbackPc.holders (cb : CallbackPc) : Finset Unit := if cb.holds then {()} else ∅

/-- It has executed `aer_cancel`. -/
def CallbackPc.executed : CallbackPc → Bool
  | .cancelled | .returned => true
  | _ => false

/-- Nothing more will come of it. -/
def CallbackPc.settled : CallbackPc → Bool
  | .returned | .threw | .removed => true
  | _ => false

/-- A call of `RunCore`, with its token and its locals. -/
structure RunCall where
  /-- Where it stands. -/
  pc : RunPc
  /-- Its token has been cancelled. -/
  tokenCancelled : Bool
  /-- What `localCancel` refers to. -/
  localCancel : Option SafeHandle
  /-- The callback that is registered with the token. -/
  callback : CallbackPc
  /-- How often `aer_cancel` has been executed on the handle. -/
  aerCancels : ℕ
  deriving DecidableEq

/-- A call that has not been made. -/
def RunCall.init : RunCall := ⟨.idle, false, none, .unregistered, 0⟩

/-- `localCancel.Dispose()`, from wherever the handle is known. -/
def RunCall.disposeHandle (r : RunCall) : RunCall :=
  { r with localCancel := r.localCancel.map SafeHandle.dispose }

/-- The fields of `AerTask`; that of the cancel handle names the call whose handle it is. -/
structure Shared (κ : Type*) where
  /-- `handle`. -/
  handle : SafeHandle
  /-- `hasRunFlag`. -/
  hasRun : Bool
  /-- `disposedFlag`. -/
  disposed : Bool
  /-- `cancelHandle`. -/
  cancelHandle : Option κ
  deriving DecidableEq

/-- A new instance. -/
def Shared.init : Shared κ := ⟨.new, false, false, none⟩

/-- A step of `RunCore`. -/
inductive RunAct
  /-- `ThrowIfDisposed()`. -/
  | check
  /-- `Interlocked.Exchange(ref hasRunFlag, 1)`. -/
  | exchange
  /-- The token is looked at, and `aer_task_make_cancel_handle` is called. -/
  | make
  /-- It returns a handle, or an invalid one. -/
  | makeReturns (valid : Bool)
  /-- `cancelHandle = localCancel`. -/
  | store
  /-- `Register`. -/
  | register
  /-- `Register` returns or throws after it has run the callback. -/
  | registerReturns
  /-- `aer_task_run` is called. -/
  | run
  /-- It returns. -/
  | runReturns (code : AerErrorCode)
  /-- `registration.Dispose()`. -/
  | unregister
  /-- `cancelHandle = null`. -/
  | clearField
  /-- `localCancel?.Dispose()`. -/
  | disposeLocal
  deriving DecidableEq, Repr

/-- The exception for the code that `aer_task_run` has returned. -/
def runResult (code : AerErrorCode) : Except RunException Unit :=
  if code = .ok then .ok () else .error (.aer code)

/-- A step of call `k` of `RunCore`; `canBeCanceled` is what its token says of itself. -/
def runStep (canBeCanceled : Bool) (k : κ) (sh : Shared κ) (r : RunCall) :
    RunAct → Option (Shared κ × RunCall)
  | .check =>
      if r.pc = .idle then
        some (sh, { r with
          pc := if sh.disposed then .finished (.error .objectDisposed) else .checked })
      else none
  | .exchange =>
      if r.pc = .checked then
        some ({ sh with hasRun := true }, { r with
          pc := if sh.hasRun then .finished (.error .invalidOperation) else .entered })
      else none
  | .make =>
      if r.pc = .entered then
        if canBeCanceled then
          match sh.handle.addRef with
          | none => some (sh, { r with pc := .unregister (.error .objectDisposed) })
          | some h => some ({ sh with handle := h }, { r with pc := .making })
        else some (sh, { r with pc := .ready })
      else none
  | .makeReturns valid =>
      if r.pc = .making then
        -- an invalid handle owns nothing, and `localCancel` is null again
        some ({ sh with handle := sh.handle.release },
          if valid then { r with pc := .made, localCancel := some .new }
          else { r with pc := .unregister (.error (.aer .nullPointer)) })
      else none
  | .store =>
      if r.pc = .made then
        some ({ sh with cancelHandle := some k }, { r with pc := .stored })
      else none
  | .register =>
      if r.pc = .stored then
        some (sh, if r.tokenCancelled then { r with pc := .inlined, callback := .invoked }
          else { r with pc := .ready, callback := .pending })
      else none
  | .registerReturns =>
      if r.pc = .inlined then
        match r.callback with
        | .returned => some (sh, { r with pc := .ready })
        | .threw => some (sh, { r with pc := .unregister (.error .objectDisposed) })
        | _ => none
      else none
  | .run =>
      if r.pc = .ready then
        match sh.handle.addRef with
        | none => some (sh, { r with pc := .unregister (.error .objectDisposed) })
        | some h => some ({ sh with handle := h }, { r with pc := .running })
      else none
  | .runReturns code =>
      if r.pc = .running then
        some ({ sh with handle := sh.handle.release },
          { r with pc := .unregister (runResult code) })
      else none
  | .unregister =>
      match r.pc with
      | .unregister res =>
          match r.callback with
          | .pending => some (sh, { r with pc := .clearField res, callback := .removed })
          | .unregistered | .returned | .threw | .removed =>
              some (sh, { r with pc := .clearField res })
          -- it waits for a callback that is under way
          | .invoked | .calling | .cancelled => none
      | _ => none
  | .clearField =>
      match r.pc with
      | .clearField res =>
          some ({ sh with cancelHandle := none }, { r with pc := .disposeLocal res })
      | _ => none
  | .disposeLocal =>
      match r.pc with
      | .disposeLocal res => some (sh, { r.disposeHandle with pc := .finished res })
      | _ => none

/-! ### The callback -/

/-- A step of the callback. -/
inductive CallbackAct
  /-- The source, having been cancelled, comes to this callback. -/
  | invoke
  /-- The marshaller takes a reference to the handle. -/
  | addRef
  /-- `aer_cancel` is executed. -/
  | aerCancel
  /-- The marshaller gives the reference back. -/
  | release
  deriving DecidableEq, Repr

/-- A step of the callback of a call. -/
def callbackStep (r : RunCall) : CallbackAct → Option RunCall
  | .invoke =>
      if r.callback = .pending ∧ r.tokenCancelled = true then some { r with callback := .invoked }
      else none
  | .addRef =>
      if r.callback = .invoked then
        r.localCancel.map fun h =>
          match h.addRef with
          | none => { r with callback := .threw }
          | some h' => { r with callback := .calling, localCancel := some h' }
      else none
  | .aerCancel =>
      if r.callback = .calling then
        some { r with callback := .cancelled, aerCancels := r.aerCancels + 1 }
      else none
  | .release =>
      if r.callback = .cancelled then
        some { r with callback := .returned, localCancel := r.localCancel.map SafeHandle.release }
      else none

/-! ### `Dispose()` -/

/-- Where a call of `Dispose()` stands. -/
inductive DisposePc (κ : Type*)
  /-- It has not been made. -/
  | idle
  /-- The exchange of `disposedFlag` was the first one. -/
  | entered
  /-- The field has been read. -/
  | loaded (field : Option κ)
  /-- Before `handle.Dispose()`. -/
  | disposeTask
  /-- It has ended. -/
  | finished
  /-- It was not the first one. -/
  | skipped
  deriving DecidableEq

/-- A step of `Dispose()`. -/
inductive DisposeAct
  /-- `Interlocked.Exchange(ref disposedFlag, 1)`. -/
  | exchange
  /-- `cancelHandle` is loaded. -/
  | load
  /-- `?.Dispose()`. -/
  | disposeCancel
  /-- `handle.Dispose()`. -/
  | disposeTask
  deriving DecidableEq, Repr

/-- A step of `Dispose()`; what becomes of the cancel handles is left to `step`. -/
def disposeStep (sh : Shared κ) (pc : DisposePc κ) : DisposeAct → Option (Shared κ × DisposePc κ)
  | .exchange =>
      match pc with
      | .idle => some ({ sh with disposed := true }, if sh.disposed then .skipped else .entered)
      | _ => none
  | .load =>
      match pc with
      | .entered => some (sh, .loaded sh.cancelHandle)
      | _ => none
  | .disposeCancel =>
      match pc with
      | .loaded _ => some (sh, .disposeTask)
      | _ => none
  | .disposeTask =>
      match pc with
      | .disposeTask => some ({ sh with handle := sh.handle.dispose }, .finished)
      | _ => none

/-! ### All threads together -/

/-- A managed task, the calls of `RunCore` and those of `Dispose()` on it. -/
structure State (κ δ : Type*) where
  /-- The fields. -/
  shared : Shared κ
  /-- The calls of `RunCore`. -/
  run : κ → RunCall
  /-- The calls of `Dispose()`. -/
  dispose : δ → DisposePc κ

/-- A step of one of the threads. -/
inductive Label (κ δ : Type*)
  /-- Call `k` of `RunCore`. -/
  | run (k : κ) (a : RunAct)
  /-- The callback that it has registered. -/
  | callback (k : κ) (a : CallbackAct)
  /-- The token it was given is cancelled. -/
  | cancel (k : κ)
  /-- Call `d` of `Dispose()`. -/
  | dispose (d : δ) (a : DisposeAct)
  deriving DecidableEq

/-- A new instance. -/
def State.init : State κ δ := ⟨.init, fun _ => .init, fun _ => .idle⟩

section Step

variable [DecidableEq κ] [DecidableEq δ]

/-- The state with another call of `RunCore`. -/
def State.setRun (w : State κ δ) (k : κ) (r : RunCall) : State κ δ :=
  { w with run := Function.update w.run k r }

/-- The handle that a call of `Dispose()` has found in the field is disposed of. -/
def State.disposeLoaded (w : State κ δ) : DisposePc κ → State κ δ
  | .loaded (some k) => w.setRun k (w.run k).disposeHandle
  | _ => w

/-- One step of the system; `canBeCanceled k` is what the token of call `k` says of itself. -/
def step (canBeCanceled : κ → Bool) (w : State κ δ) : Label κ δ → Option (State κ δ)
  | .run k a =>
      (runStep (canBeCanceled k) k w.shared (w.run k) a).map fun p =>
        { w.setRun k p.2 with shared := p.1 }
  | .callback k a => (callbackStep (w.run k) a).map (w.setRun k)
  | .cancel k =>
      if (w.run k).tokenCancelled then none
      else some (w.setRun k { w.run k with tokenCancelled := true })
  | .dispose d a =>
      (disposeStep w.shared (w.dispose d) a).map fun p =>
        let w' := if a = .disposeCancel then w.disposeLoaded (w.dispose d) else w
        { w' with shared := p.1, dispose := Function.update w.dispose d p.2 }

/-- `tr` leads from a new instance to `w`. -/
def Reaches (canBeCanceled : κ → Bool) (tr : List (Label κ δ)) (w : State κ δ) : Prop :=
  Lts.exec (step canBeCanceled) State.init tr = some w

end Step

/-! ### What a step does -/

/-- What a step of `RunCore` does. -/
inductive RunMove (canBeCanceled : Bool) (k : κ) (sh : Shared κ) (r : RunCall) :
    RunAct → Shared κ → RunCall → Prop
  | check (pc : r.pc = .idle) :
      RunMove canBeCanceled k sh r .check sh { r with
        pc := if sh.disposed then .finished (.error .objectDisposed) else .checked }
  | exchange (pc : r.pc = .checked) :
      RunMove canBeCanceled k sh r .exchange { sh with hasRun := true } { r with
        pc := if sh.hasRun then .finished (.error .invalidOperation) else .entered }
  | makeSkipped (pc : r.pc = .entered) (can : canBeCanceled = false) :
      RunMove canBeCanceled k sh r .make sh { r with pc := .ready }
  | makeRefused (pc : r.pc = .entered) (can : canBeCanceled = true)
      (refused : sh.handle.addRef = none) :
      RunMove canBeCanceled k sh r .make sh { r with pc := .unregister (.error .objectDisposed) }
  | make {h} (pc : r.pc = .entered) (can : canBeCanceled = true)
      (granted : sh.handle.addRef = some h) :
      RunMove canBeCanceled k sh r .make { sh with handle := h } { r with pc := .making }
  | makeReturns (pc : r.pc = .making) :
      RunMove canBeCanceled k sh r (.makeReturns true) { sh with handle := sh.handle.release }
        { r with pc := .made, localCancel := some .new }
  | makeFails (pc : r.pc = .making) :
      RunMove canBeCanceled k sh r (.makeReturns false) { sh with handle := sh.handle.release }
        { r with pc := .unregister (.error (.aer .nullPointer)) }
  | store (pc : r.pc = .made) :
      RunMove canBeCanceled k sh r .store { sh with cancelHandle := some k }
        { r with pc := .stored }
  | registerInline (pc : r.pc = .stored) (cancelled : r.tokenCancelled = true) :
      RunMove canBeCanceled k sh r .register sh { r with pc := .inlined, callback := .invoked }
  | register (pc : r.pc = .stored) (live : r.tokenCancelled = false) :
      RunMove canBeCanceled k sh r .register sh { r with pc := .ready, callback := .pending }
  | inlineReturned (pc : r.pc = .inlined) (cb : r.callback = .returned) :
      RunMove canBeCanceled k sh r .registerReturns sh { r with pc := .ready }
  | inlineThrew (pc : r.pc = .inlined) (cb : r.callback = .threw) :
      RunMove canBeCanceled k sh r .registerReturns sh { r with
        pc := .unregister (.error .objectDisposed) }
  | runRefused (pc : r.pc = .ready) (refused : sh.handle.addRef = none) :
      RunMove canBeCanceled k sh r .run sh { r with pc := .unregister (.error .objectDisposed) }
  | run {h} (pc : r.pc = .ready) (granted : sh.handle.addRef = some h) :
      RunMove canBeCanceled k sh r .run { sh with handle := h } { r with pc := .running }
  | runReturns {code} (pc : r.pc = .running) :
      RunMove canBeCanceled k sh r (.runReturns code) { sh with handle := sh.handle.release }
        { r with pc := .unregister (runResult code) }
  | removed {res} (pc : r.pc = .unregister res) (cb : r.callback = .pending) :
      RunMove canBeCanceled k sh r .unregister sh
        { r with pc := .clearField res, callback := .removed }
  | unregister {res} (pc : r.pc = .unregister res)
      (cb : r.callback = .unregistered ∨ r.callback.settled = true) :
      RunMove canBeCanceled k sh r .unregister sh { r with pc := .clearField res }
  | clearField {res} (pc : r.pc = .clearField res) :
      RunMove canBeCanceled k sh r .clearField { sh with cancelHandle := none }
        { r with pc := .disposeLocal res }
  | disposeLocal {res} (pc : r.pc = .disposeLocal res) :
      RunMove canBeCanceled k sh r .disposeLocal sh { r.disposeHandle with pc := .finished res }

/-- Every step of `RunCore` is a move. -/
theorem runMove_of_step {canBeCanceled : Bool} {k : κ} {sh sh' : Shared κ} {r r' : RunCall}
    {a : RunAct} (h : runStep canBeCanceled k sh r a = some (sh', r')) :
    RunMove canBeCanceled k sh r a sh' r' := by
  cases a with
  | check =>
    obtain ⟨pc, h⟩ := Option.ite_none_right_eq_some.mp h
    cases h
    exact .check pc
  | exchange =>
    obtain ⟨pc, h⟩ := Option.ite_none_right_eq_some.mp h
    cases h
    exact .exchange pc
  | make =>
    obtain ⟨pc, h⟩ := Option.ite_none_right_eq_some.mp h
    split at h
    · next can =>
      split at h
      · next refused => cases h; exact .makeRefused pc can refused
      · next granted => cases h; exact .make pc can granted
    · next can => cases h; exact .makeSkipped pc (Bool.eq_false_iff.mpr can)
  | makeReturns valid =>
    obtain ⟨pc, h⟩ := Option.ite_none_right_eq_some.mp h
    cases h
    cases valid
    · exact .makeFails pc
    · exact .makeReturns pc
  | store =>
    obtain ⟨pc, h⟩ := Option.ite_none_right_eq_some.mp h
    cases h
    exact .store pc
  | register =>
    obtain ⟨pc, h⟩ := Option.ite_none_right_eq_some.mp h
    cases h
    split
    · next cancelled => exact .registerInline pc cancelled
    · next live => exact .register pc (Bool.eq_false_iff.mpr live)
  | registerReturns =>
    obtain ⟨pc, h⟩ := Option.ite_none_right_eq_some.mp h
    split at h
    · next cb => cases h; exact .inlineReturned pc cb
    · next cb => cases h; exact .inlineThrew pc cb
    · cases h
  | run =>
    obtain ⟨pc, h⟩ := Option.ite_none_right_eq_some.mp h
    split at h
    · next refused => cases h; exact .runRefused pc refused
    · next granted => cases h; exact .run pc granted
  | runReturns code =>
    obtain ⟨pc, h⟩ := Option.ite_none_right_eq_some.mp h
    cases h
    exact .runReturns pc
  | unregister =>
    simp only [runStep] at h
    split at h
    · next pc =>
      split at h
      · next cb => cases h; exact .removed pc cb
      · next cb => cases h; exact .unregister pc (.inl cb)
      · next cb => cases h; exact .unregister pc (.inr (by rw [cb]; rfl))
      · next cb => cases h; exact .unregister pc (.inr (by rw [cb]; rfl))
      · next cb => cases h; exact .unregister pc (.inr (by rw [cb]; rfl))
      all_goals cases h
    · cases h
  | clearField =>
    simp only [runStep] at h
    split at h
    · next pc => cases h; exact .clearField pc
    · cases h
  | disposeLocal =>
    simp only [runStep] at h
    split at h
    · next pc => cases h; exact .disposeLocal pc
    · cases h

/-- What a step of the callback does. -/
inductive CallbackMove (r : RunCall) : CallbackAct → RunCall → Prop
  | invoke (cb : r.callback = .pending) (cancelled : r.tokenCancelled = true) :
      CallbackMove r .invoke { r with callback := .invoked }
  | refused {h} (cb : r.callback = .invoked) (held : r.localCancel = some h)
      (refused : h.addRef = none) : CallbackMove r .addRef { r with callback := .threw }
  | addRef {h h'} (cb : r.callback = .invoked) (held : r.localCancel = some h)
      (granted : h.addRef = some h') :
      CallbackMove r .addRef { r with callback := .calling, localCancel := some h' }
  | aerCancel (cb : r.callback = .calling) :
      CallbackMove r .aerCancel
        { r with callback := .cancelled, aerCancels := r.aerCancels + 1 }
  | release (cb : r.callback = .cancelled) :
      CallbackMove r .release
        { r with callback := .returned, localCancel := r.localCancel.map SafeHandle.release }

/-- Every step of the callback is a move. -/
theorem callbackMove_of_step {r r' : RunCall} {a : CallbackAct}
    (h : callbackStep r a = some r') : CallbackMove r a r' := by
  cases a with
  | invoke =>
    obtain ⟨⟨cb, cancelled⟩, h⟩ := Option.ite_none_right_eq_some.mp h
    cases h
    exact .invoke cb cancelled
  | addRef =>
    obtain ⟨cb, h⟩ := Option.ite_none_right_eq_some.mp h
    obtain ⟨hd, held, h⟩ := Option.map_eq_some_iff.mp h
    split at h
    · next refused => cases h; exact .refused cb held refused
    · next granted => cases h; exact .addRef cb held granted
  | aerCancel =>
    obtain ⟨cb, h⟩ := Option.ite_none_right_eq_some.mp h
    cases h
    exact .aerCancel cb
  | release =>
    obtain ⟨cb, h⟩ := Option.ite_none_right_eq_some.mp h
    cases h
    exact .release cb

/-- What a step of `Dispose()` does. -/
inductive DisposeMove (sh : Shared κ) :
    DisposePc κ → DisposeAct → Shared κ → DisposePc κ → Prop
  | first (new : sh.disposed = false) :
      DisposeMove sh .idle .exchange { sh with disposed := true } .entered
  | again (old : sh.disposed = true) :
      DisposeMove sh .idle .exchange { sh with disposed := true } .skipped
  | load : DisposeMove sh .entered .load sh (.loaded sh.cancelHandle)
  | disposeCancel {field} : DisposeMove sh (.loaded field) .disposeCancel sh .disposeTask
  | disposeTask :
      DisposeMove sh .disposeTask .disposeTask { sh with handle := sh.handle.dispose } .finished

/-- Every step of `Dispose()` is a move. -/
theorem disposeMove_of_step {sh sh' : Shared κ} {pc pc' : DisposePc κ} {a : DisposeAct}
    (h : disposeStep sh pc a = some (sh', pc')) : DisposeMove sh pc a sh' pc' := by
  cases a with
  | exchange =>
    simp only [disposeStep] at h
    split at h
    · cases h
      cases hd : sh.disposed with
      | false => exact .first hd
      | true => exact .again hd
    · cases h
  | load =>
    simp only [disposeStep] at h
    split at h
    · cases h; exact .load
    · cases h
  | disposeCancel =>
    simp only [disposeStep] at h
    split at h
    · cases h; exact .disposeCancel
    · cases h
  | disposeTask =>
    simp only [disposeStep] at h
    split at h
    · cases h; exact .disposeTask
    · cases h

@[simp] theorem run_setRun_self [DecidableEq κ] (w : State κ δ) (k : κ) (r : RunCall) :
    (w.setRun k r).run k = r := by
  simp [State.setRun]

theorem run_setRun_of_ne [DecidableEq κ] (w : State κ δ) {j k : κ} (r : RunCall) (h : j ≠ k) :
    (w.setRun k r).run j = w.run j := by
  simp [State.setRun, h]

section Moves

variable [DecidableEq κ] [DecidableEq δ] {canBeCanceled : κ → Bool} {w w' : State κ δ}
  {l : Label κ δ} {k : κ}

/-- What a step of the system does to call `k` of `RunCore` and to what belongs to it. -/
inductive CallMove (canBeCanceled : Bool) (k : κ) (w : State κ δ) : Label κ δ → RunCall → Prop
  | run {a sh r'} (h : RunMove canBeCanceled k w.shared (w.run k) a sh r') :
      CallMove canBeCanceled k w (.run k a) r'
  | callback {a r'} (h : CallbackMove (w.run k) a r') :
      CallMove canBeCanceled k w (.callback k a) r'
  | cancel (live : (w.run k).tokenCancelled = false) :
      CallMove canBeCanceled k w (.cancel k) { w.run k with tokenCancelled := true }
  | disposeHandle {d} (loaded : w.dispose d = .loaded (some k)) :
      CallMove canBeCanceled k w (.dispose d .disposeCancel) (w.run k).disposeHandle
  | other {l : Label κ δ} (run : ∀ a, l ≠ .run k a)
      (dispose : ∀ d, l = .dispose d .disposeCancel → w.dispose d ≠ .loaded (some k)) :
      CallMove canBeCanceled k w l (w.run k)

/-- Every step is a move of each call. -/
theorem callMove_of_step (h : step canBeCanceled w l = some w') (k : κ) :
    CallMove (canBeCanceled k) k w l (w'.run k) := by
  cases l with
  | run j a =>
    obtain ⟨⟨sh, r⟩, hr, rfl⟩ := Option.map_eq_some_iff.mp h
    by_cases hk : k = j
    · subst hk
      simp only [run_setRun_self]
      exact .run (runMove_of_step hr)
    · simp only [run_setRun_of_ne _ _ hk]
      exact .other (fun a' ha => hk (by cases ha; rfl)) (fun d hd => by cases hd)
  | callback j a =>
    obtain ⟨r, hr, rfl⟩ := Option.map_eq_some_iff.mp h
    by_cases hk : k = j
    · subst hk
      rw [run_setRun_self]
      exact .callback (callbackMove_of_step hr)
    · rw [run_setRun_of_ne _ _ hk]
      exact .other (fun a' ha => by cases ha) (fun d hd => by cases hd)
  | cancel j =>
    simp only [step] at h
    split at h
    · cases h
    · next live =>
      obtain rfl := Option.some.inj h
      by_cases hk : k = j
      · subst hk
        rw [run_setRun_self]
        exact .cancel (Bool.eq_false_iff.mpr live)
      · rw [run_setRun_of_ne _ _ hk]
        exact .other (fun a' ha => by cases ha) (fun d hd => by cases hd)
  | dispose d a =>
    obtain ⟨⟨sh, pc⟩, hr, rfl⟩ := Option.map_eq_some_iff.mp h
    by_cases ha : a = .disposeCancel ∧ w.dispose d = .loaded (some k)
    · obtain ⟨rfl, hd⟩ := ha
      simp only [if_true, hd, State.disposeLoaded, run_setRun_self]
      exact .disposeHandle hd
    · have hrun : (if a = .disposeCancel then w.disposeLoaded (w.dispose d) else w).run k =
          w.run k := by
        split
        · next hc =>
          unfold State.disposeLoaded
          split
          · next j hd =>
            refine run_setRun_of_ne _ _ ?_
            rintro rfl
            exact ha ⟨hc, hd⟩
          · rfl
        · rfl
      simp only [hrun]
      refine .other (fun a' ha' => by cases ha') ?_
      intro d' hd' hl
      cases hd'
      exact ha ⟨rfl, hl⟩

/-- What a step of the system does to the fields and to the calls of `Dispose()`. -/
inductive StateMove (canBeCanceled : κ → Bool) (w w' : State κ δ) : Label κ δ → Prop
  | run {k a} (h : RunMove (canBeCanceled k) k w.shared (w.run k) a w'.shared (w'.run k))
      (frame : ∀ j ≠ k, w'.run j = w.run j) (dispose : w'.dispose = w.dispose) :
      StateMove canBeCanceled w w' (.run k a)
  | dispose {d a} (h : DisposeMove w.shared (w.dispose d) a w'.shared (w'.dispose d))
      (frame : ∀ e ≠ d, w'.dispose e = w.dispose e) : StateMove canBeCanceled w w' (.dispose d a)
  | other {l : Label κ δ} (run : ∀ k a, l ≠ .run k a) (shared : w'.shared = w.shared)
      (dispose : w'.dispose = w.dispose) : StateMove canBeCanceled w w' l

/-- Every step is a move of the fields. -/
theorem stateMove_of_step (h : step canBeCanceled w l = some w') :
    StateMove canBeCanceled w w' l := by
  cases l with
  | run k a =>
    obtain ⟨⟨sh, r⟩, hr, rfl⟩ := Option.map_eq_some_iff.mp h
    refine .run ?_ (fun j hj => run_setRun_of_ne _ _ hj) rfl
    simp only [run_setRun_self]
    exact runMove_of_step hr
  | callback k a =>
    obtain ⟨r, -, rfl⟩ := Option.map_eq_some_iff.mp h
    exact .other (fun _ _ hl => by cases hl) rfl rfl
  | cancel k =>
    obtain ⟨-, h⟩ := Option.ite_none_left_eq_some.mp h
    obtain rfl := Option.some.inj h
    exact .other (fun _ _ hl => by cases hl) rfl rfl
  | dispose d a =>
    obtain ⟨⟨sh, pc⟩, hr, rfl⟩ := Option.map_eq_some_iff.mp h
    refine .dispose ?_ fun e he => Function.update_of_ne he _ _
    simp only [Function.update_self]
    exact disposeMove_of_step hr

end Moves

end AerCore.Managed
