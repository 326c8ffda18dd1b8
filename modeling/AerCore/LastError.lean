import AerCore.Ffi

/-!
# The last error message

`aer_last_error_message` returns what the calls of the thread have left in `LAST_ERROR`.  A
call that goes through clears it, a call that fails inside the library sets it, and a call
that is turned away at the door, or that has nothing to clear, leaves it as it was.  So a
message is the answer of the last call exactly when that call has written it, or when there
was none before.

## Main definitions

* `Call.touches` — the arguments and the state take the call to a branch that writes
  `LAST_ERROR`.
* `ownMessage` — what a call leaves behind when there was no message before it.
* `Fresh` — the message after a call is its own.

## Main results

* `call_clearLastError` — a call does not read the message, and keeps it unless it touches it.
* `last_error_is_fresh_iff` — **exactly when a message is not a stale one**.
* `failedRun_leaves_stale_message` — the message of a failed run outlives calls that succeed
  and is there when a setter is turned away.
-/

namespace AerCore

variable {strerror : ℤ → String} {s s' : Ffi} {c : Call} {r : Ret}

/-! ### Who writes the message -/

/-- A setter that has let its arguments pass takes the task out and hands it to the builder. -/
def setterTouches (s : Ffi) (task : Option ℕ) (arg : Arg) : Bool :=
  match task, arg with
  | some p, .ok _ => (s.task? p).any fun t => !t.hasRun && t.inner.isSome
  | _, _ => false

/-- The call comes to a branch that writes `LAST_ERROR`: a setter whose arguments are valid on a
task that has not been run, a `cancel` of a handle, the return of a run that was entered, or a
panic. -/
def Call.touches (s : Ffi) : Call → Bool
  | .new program args argsLen panic => (newTask program args argsLen).isSome && panic.isSome
  | .makeCancelHandle task panic => task.isSome && panic.isSome
  | .cancel handle _ => handle.isSome
  | .runReturns _ => true
  | .run _ | .cancelFree _ | .taskFree _ => false
  | .withTimeout task timeoutMs _ => setterTouches s task (.ok (.timeout timeoutMs.toNat))
  | .withCaptureOutput task capture _ => setterTouches s task (.ok (.captureOutput capture))
  | .setEnv task key value _ => setterTouches s task (envArg key value)
  | .setClearEnv task clear _ => setterTouches s task (.ok (.clearEnv clear))
  | .setCwd task path _ => setterTouches s task (cwdArg path)

theorem Call.touches_of_setter {task : Option ℕ} {arg : Arg} {panic : Option PanicPayload}
    (h : c.setter? = some (task, arg, panic)) : c.touches s = setterTouches s task arg := by
  cases c with
  | withTimeout | withCaptureOutput | setEnv | setClearEnv | setCwd => cases h; rfl
  | _ => cases h

/-- The call returned something other than an error or null. -/
def Ret.succeeded : Ret → Bool
  | .code c => decide (c = .ok)
  | .task p => p.isSome
  | .handle h => h.isSome
  | .entered | .void => true

/-- The functions whose calls are asked about: all but the two that free. -/
def Call.reports : Call → Bool
  | .cancelFree _ | .taskFree _ => false
  | _ => true

/-- The message that the call leaves when there was none before it. -/
def ownMessage (strerror : ℤ → String) (s : Ffi) (c : Call) : Option String :=
  (call strerror s.clearLastError c).bind fun (s', _) => s'.lastError

/-- The message after a call is its own: none if it succeeded, and if it failed none or the one
that it has set. -/
def Fresh (strerror : ℤ → String) (s : Ffi) (c : Call) (s' : Ffi) (r : Ret) : Prop :=
  if r.succeeded then s'.lastError = none
  else s'.lastError = none ∨ s'.lastError = ownMessage strerror s c

/-! ### One call -/

theorem setter_clearLastError (s : Ffi) (task : Option ℕ) (arg : Arg)
    (panic : Option PanicPayload) :
    setter s.clearLastError task arg panic =
      (setter s task arg panic).map fun (s', code) =>
        (if setterTouches s task arg then s' else s'.clearLastError, code) := by
  cases task with
  | none => rfl
  | some p =>
    have htask : s.clearLastError.task? p = s.task? p := rfl
    cases arg with
    | null => rfl
    | invalid =>
      simp only [setter, htask, Option.map_map]
      cases s.task? p with
      | none => rfl
      | some t => rfl
    | ok b =>
      simp only [setter, htask, Option.map_map]
      cases ht : s.task? p with
      | none => rfl
      | some t =>
        obtain ⟨inner, ran, handle⟩ := t
        cases ran with
        | true => simp [setterTouches, ht]
        | false =>
          cases inner with
          | none => simp [setterTouches, ht]
          | some inner => cases panic <;> simp [setterTouches, ht] <;> rfl

/-- **A call does not read the message**: without one before it the call does the same, and
leaves the same message if it touches it. -/
theorem call_clearLastError (strerror : ℤ → String) (s : Ffi) (c : Call) :
    call strerror s.clearLastError c =
      (call strerror s c).map fun (s', r) =>
        (if c.touches s then s' else s'.clearLastError, r) := by
  cases hset : c.setter? with
  | some args =>
    obtain ⟨task, arg, panic⟩ := args
    rw [call_of_setter hset, call_of_setter hset, setter_clearLastError,
      Call.touches_of_setter hset, Option.map_map, Option.map_map]
    rfl
  | none =>
    cases c with
    | withTimeout | withCaptureOutput | setEnv | setClearEnv | setCwd => cases hset
    | new program args argsLen panic =>
      cases hnew : newTask program args argsLen with
      | none => simp [call, aerTaskNew, Call.touches, hnew]
      | some t =>
        cases panic with
        | none => simp [call, aerTaskNew, Call.touches, hnew, Ffi.clearLastError]
        | some e =>
          simp [call, aerTaskNew, Call.touches, hnew, Ffi.clearLastError, Ffi.setLastError]
    | makeCancelHandle task panic =>
      cases task with
      | none => rfl
      | some p =>
        have htask : s.clearLastError.task? p = s.task? p := rfl
        simp only [call, aerTaskMakeCancelHandle, htask, Option.map_map]
        cases s.task? p with
        | none => rfl
        | some t => cases panic <;> rfl
    | cancel handle panic =>
      cases handle with
      | none => rfl
      | some h =>
        have hhandles : s.clearLastError.handles = s.handles := rfl
        simp only [call, aerCancel, hhandles]
        split
        · cases panic <;> rfl
        · rfl
    | cancelFree handle =>
      cases handle with
      | none => rfl
      | some h =>
        have hhandles : s.clearLastError.handles = s.handles := rfl
        simp only [call, aerCancelFree, hhandles]
        split <;> rfl
    | run task =>
      cases task with
      | none => rfl
      | some p =>
        have htask : s.clearLastError.task? p = s.task? p := rfl
        simp only [call, aerTaskRun, htask, Option.map_map]
        cases s.task? p with
        | none => rfl
        | some t =>
          obtain ⟨inner, ran, handle⟩ := t
          cases ran <;> cases inner <;> rfl
    | runReturns o =>
      have hrunning : s.clearLastError.running = s.running := rfl
      simp only [call, aerTaskRunReturns, hrunning]
      cases s.running with
      | nil => rfl
      | cons p running =>
        cases o with
        | returned res => cases res <;> rfl
        | panicked e => rfl
    | taskFree task =>
      cases task with
      | none => rfl
      | some p =>
        have htask : s.clearLastError.task? p = s.task? p := rfl
        simp only [call, aerTaskFree, htask, Option.map_map]
        cases s.task? p <;> rfl

/-- What a call leaves of the message. -/
theorem CallMove.lastError (h : CallMove strerror s c s' r) (hc : c.reports = true)
    (hr : r ≠ .entered) :
    (c.touches s = true ∧ (r.succeeded = true → s'.lastError = none)) ∨
      (c.touches s = false ∧ s'.lastError = s.lastError) := by
  -- a setter writes in its last two branches only
  have hset : ∀ {task arg panic}, c.setter? = some (task, arg, panic) →
      c.touches s = setterTouches s task arg := fun args => Call.touches_of_setter args
  cases h with
  | newInvalid invalid => exact .inr ⟨by simp [Call.touches, invalid], rfl⟩
  | newPanics valid =>
    refine .inl ⟨by simp [Call.touches, valid], fun hs => ?_⟩
    cases hs
  | newOk => exact .inr ⟨by simp [Call.touches], rfl⟩
  | @setterNull _ task arg _ args null =>
    refine .inr ⟨?_, rfl⟩
    rw [hset args]
    rcases null with rfl | rfl
    · rfl
    · cases task <;> rfl
  | @setterLate _ p arg _ t args _ task ran =>
    refine .inr ⟨?_, rfl⟩
    rw [hset args]
    cases arg <;> simp [setterTouches, task, ran]
  | setterInvalid args => exact .inr ⟨by rw [hset args]; rfl, rfl⟩
  | setterGone args task _ gone =>
    exact .inr ⟨by rw [hset args]; simp [setterTouches, task, gone], rfl⟩
  | setterOk args task fresh there =>
    exact .inl ⟨by rw [hset args]; simp [setterTouches, task, fresh, there], fun _ => rfl⟩
  | setterPanics args task fresh there =>
    refine .inl ⟨by rw [hset args]; simp [setterTouches, task, fresh, there], fun hs => ?_⟩
    cases hs
  | makeNull | cancelNull | runNull => exact .inr ⟨rfl, rfl⟩
  | makePanics =>
    refine .inl ⟨rfl, fun hs => ?_⟩
    cases hs
  | makeOk => exact .inr ⟨rfl, rfl⟩
  | cancelOk | returnsOk => exact .inl ⟨rfl, fun _ => rfl⟩
  | cancelPanics | returnsPanic =>
    refine .inl ⟨rfl, fun hs => ?_⟩
    cases hs
  | @returnsError _ _ e =>
    refine .inl ⟨rfl, fun hs => ?_⟩
    cases e <;> cases hs
  | runLate | runGone => exact .inr ⟨rfl, rfl⟩
  | runEnters => exact absurd rfl hr
  | cancelFreeNull | cancelFree | taskFreeNull | taskFree => cases hc

theorem ownMessage_eq (h : call strerror s c = some (s', r)) :
    ownMessage strerror s c = if c.touches s then s'.lastError else none := by
  simp only [ownMessage, call_clearLastError, h, Option.map_some, Option.bind_some]
  split <;> rfl

theorem fresh_iff (h : call strerror s c = some (s', r)) (hc : c.reports = true)
    (hr : r ≠ .entered) :
    Fresh strerror s c s' r ↔ s.lastError = none ∨ c.touches s = true := by
  unfold Fresh
  rw [ownMessage_eq h]
  rcases (callMove_of_call h).lastError hc hr with ⟨htouch, hok⟩ | ⟨htouch, hkeep⟩
  · -- the message is the call's own
    simp only [htouch, if_true, or_true, iff_true]
    split
    · next hs => exact hok hs
    · trivial
  · -- the message is the one from before
    simp [htouch, hkeep]

/-- A message that a call has not touched is a stale one. -/
theorem not_fresh_of_untouched (h : call strerror s c = some (s', r)) (hc : c.reports = true)
    (hr : r ≠ .entered) (ht : c.touches s = false) {m : String} (hm : s'.lastError = some m) :
    ¬Fresh strerror s c s' r := by
  rw [fresh_iff h hc hr]
  rcases (callMove_of_call h).lastError hc hr with ⟨ht', -⟩ | ⟨-, hkeep⟩
  · rw [ht] at ht'
    cases ht'
  · simp [← hkeep, hm, ht]

/-! ### Whole sequences -/

/-- **A message is not a stale one exactly when there was none before the call or the call has
written it.** -/
theorem last_error_is_fresh_iff {hist : List (Call × Ret)}
    (h : Lts.exec (Ffi.step strerror) Ffi.init (hist ++ [(c, r)]) = some s')
    (hreports : c.reports = true) (hreturned : r ≠ .entered) :
    ∃ s, Lts.exec (Ffi.step strerror) Ffi.init hist = some s ∧
      (Fresh strerror s c s' r ↔ s.lastError = none ∨ c.touches s = true) := by
  obtain ⟨s, hs, hstep⟩ := Lts.exec_concat_eq_some.mp h
  exact ⟨s, hs, fresh_iff (call_of_step hstep) hreports hreturned⟩

/-! ### A message that stays -/

/-- A task is created and run. -/
def enteredRun : List (Call × Ret) :=
  [(.new (some ⟨[0x78], by decide⟩) none 0 none, .task (some 0)), (.run (some 0), .entered)]

/-- The return of a run whose program was not found. -/
def spawnFails : Call := .runReturns (.returned (.error (.spawnFailed (.os 2))))

/-- The description of `ENOENT`. -/
def noSuchFile : ℤ → String := fun _ => "No such file or directory"

/-- The message of the run that failed. -/
def failedRunMessage : String := "process spawn failed: No such file or directory (os error 2)"

/-- The message after the failed run is that of the run. -/
theorem failedRun_message_is_fresh :
    ∃ s s', Lts.exec (Ffi.step noSuchFile) Ffi.init enteredRun = some s ∧
      Ffi.step noSuchFile s (spawnFails, .code .spawnFailed) = some s' ∧
      s'.lastError = some failedRunMessage ∧
      Fresh noSuchFile s spawnFails s' (.code .spawnFailed) := by
  obtain ⟨s', hs', hmsg⟩ : ∃ s', Lts.exec (Ffi.step noSuchFile) Ffi.init
      (enteredRun ++ [(spawnFails, .code .spawnFailed)]) = some s' ∧
      s'.lastError = some failedRunMessage :=
    Lts.exists_exec_of_any (by decide +kernel)
  obtain ⟨s, hs, hfresh⟩ := last_error_is_fresh_iff hs' rfl (by simp)
  obtain ⟨s₁, hs₁, hstep⟩ := Lts.exec_concat_eq_some.mp hs'
  obtain rfl : s = s₁ := by simpa [hs] using hs₁
  exact ⟨s, s', hs, hstep, hmsg, hfresh.mpr (.inr rfl)⟩

/-- A second task is created. -/
def newAgain : Call := .new (some ⟨[0x79], by decide⟩) none 0 none

/-- A variable with an empty name is set on it. -/
def emptyKey : Call := .setEnv (some 1) (some ⟨[], by decide⟩) (some ⟨[0x76], by decide⟩) none

/-- The message of the failed run is still there after the second task has been created, and
after the setter has refused the empty name. -/
theorem failedRun_leaves_stale_message :
    (∃ s s', Lts.exec (Ffi.step noSuchFile) Ffi.init
        (enteredRun ++ [(spawnFails, .code .spawnFailed)]) = some s ∧
      Ffi.step noSuchFile s (newAgain, .task (some 1)) = some s' ∧
      s'.lastError = some failedRunMessage ∧
      ¬Fresh noSuchFile s newAgain s' (.task (some 1))) ∧
    ∃ s s', Lts.exec (Ffi.step noSuchFile) Ffi.init
        (enteredRun ++ [(spawnFails, .code .spawnFailed), (newAgain, .task (some 1))]) = some s ∧
      Ffi.step noSuchFile s (emptyKey, .code .invalidArgument) = some s' ∧
      s'.lastError = some failedRunMessage ∧
      ¬Fresh noSuchFile s emptyKey s' (.code .invalidArgument) := by
  refine ⟨?_, ?_⟩
  · obtain ⟨s', hs', hmsg⟩ : ∃ s', Lts.exec (Ffi.step noSuchFile) Ffi.init
        ((enteredRun ++ [(spawnFails, .code .spawnFailed)]) ++ [(newAgain, .task (some 1))]) =
          some s' ∧ s'.lastError = some failedRunMessage :=
      Lts.exists_exec_of_any (by decide +kernel)
    obtain ⟨s, hs, hstep⟩ := Lts.exec_concat_eq_some.mp hs'
    have htouch : newAgain.touches s = false := by simp [newAgain, Call.touches]
    exact ⟨s, s', hs, hstep, hmsg,
      not_fresh_of_untouched (call_of_step hstep) rfl (by simp) htouch hmsg⟩
  · obtain ⟨s', hs', hmsg⟩ : ∃ s', Lts.exec (Ffi.step noSuchFile) Ffi.init
        ((enteredRun ++ [(spawnFails, .code .spawnFailed), (newAgain, .task (some 1))]) ++
          [(emptyKey, .code .invalidArgument)]) =
          some s' ∧ s'.lastError = some failedRunMessage :=
      Lts.exists_exec_of_any (by decide +kernel)
    obtain ⟨s, hs, hstep⟩ := Lts.exec_concat_eq_some.mp hs'
    have harg : envArg (some ⟨[], by decide⟩) (some ⟨[0x76], by decide⟩) = .invalid := by
      decide +kernel
    have htouch : emptyKey.touches s = false := by
      simp [emptyKey, Call.touches, harg, setterTouches]
    exact ⟨s, s', hs, hstep, hmsg,
      not_fresh_of_untouched (call_of_step hstep) rfl (by simp) htouch hmsg⟩

end AerCore
