import AerCore.Managed

/-!
# Disposing of a managed task

Both native handles of a managed task are freed exactly once and never during a
native call, since both are `SafeHandle`s.  But between the registration and the
callback there is no native call on the cancel handle: if `Dispose()` comes then,
the handle is freed at once, and the callback finds it closed.

## Main definitions

* `RunCall.Ok`, `State.Ok` — the invariant.
* `HandlesOk` — each native handle is freed exactly once, and not while in use.
* `RunCall.Lost` — `aer_cancel` will not be executed any more.
* `KeepsHandle` — the steps that leave the cancel handle to the callback.

## Main results

* `handlesOk_of_reaches` — the handles are all right whatever the interleaving.
* `one_cancel_handle` — only one call of `RunCore` makes a cancel handle.
* `leads_to_settled` — the callback comes to an end on its own.
* `aerCancel_iff` — **the cancellation of the token reaches the native run exactly when
  nothing takes the handle away from the callback.**
* `disposedRun_is_not_cancelled` — `Dispose()` takes it away.
-/

namespace AerCore.Managed

open SafeHandle

variable {κ δ : Type*}

/-! ### The invariant of one call -/

/-- **The invariant of a call of `RunCore`** and of the handle it has made. -/
structure RunCall.Ok (r : RunCall) : Prop where
  /-- Only the callback uses the cancel handle. -/
  held : ∀ h, r.localCancel = some h → Held h r.callback.holders
  /-- A callback has a handle. -/
  some_of_callback : r.callback ≠ .unregistered → r.localCancel.isSome = true
  /-- There is no handle before it is made. -/
  none_of_beforeMade : r.pc.beforeMade = true → r.localCancel = none
  /-- It is there when the callback is registered. -/
  some_of_made : r.pc.beforeRegister = true → r.pc.beforeMade = false → r.localCancel.isSome = true
  /-- There is no callback before it is registered. -/
  beforeRegister : r.pc.beforeRegister = true → r.callback = .unregistered
  /-- Nor is one under way after `registration.Dispose()`. -/
  closing : r.pc.closing = true → r.callback = .unregistered ∨ r.callback.settled = true
  /-- The handle does not outlive the call. -/
  disposed : ∀ res h, r.pc = .finished res → r.localCancel = some h → h.disposed = true
  /-- The callback executes `aer_cancel` once. -/
  aerCancels : r.aerCancels = if r.callback.executed then 1 else 0

namespace RunCall

variable {r r' : RunCall}

theorem ok_init : init.Ok where
  held h hh := by cases hh
  some_of_callback hcb := absurd rfl hcb
  none_of_beforeMade _ := rfl
  some_of_made _ hpc := by cases hpc
  beforeRegister _ := rfl
  closing hpc := by cases hpc
  disposed res h hpc := by cases hpc
  aerCancels := rfl

/-- The call goes on, and leaves its handle and its callback alone. -/
theorem Ok.setPc (hr : r.Ok) {pc : RunPc} (hmade : pc.beforeMade = true → r.pc.beforeMade = true)
    (hregister : pc.beforeRegister = true →
      r.pc.beforeRegister = true ∧ pc.beforeMade = r.pc.beforeMade)
    (hclosing : pc.closing = true →
      r.pc.closing = true ∨ r.callback = .unregistered ∨ r.callback.settled = true)
    (hfinished : ∀ res h, pc = .finished res → r.localCancel = some h → h.disposed = true) :
    { r with pc := pc }.Ok where
  held := hr.held
  some_of_callback := hr.some_of_callback
  none_of_beforeMade hpc := hr.none_of_beforeMade (hmade hpc)
  some_of_made hpc hmd := hr.some_of_made (hregister hpc).1 ((hregister hpc).2 ▸ hmd)
  beforeRegister hpc := hr.beforeRegister (hregister hpc).1
  closing hpc := (hclosing hpc).elim hr.closing id
  disposed := hfinished
  aerCancels := hr.aerCancels

/-- The handle is disposed of. -/
theorem Ok.disposeHandle (hr : r.Ok) : r.disposeHandle.Ok where
  held h hh := by
    obtain ⟨h', hh', rfl⟩ := Option.map_eq_some_iff.mp hh
    exact (hr.held h' hh').dispose
  some_of_callback hcb := by
    rw [RunCall.disposeHandle, Option.isSome_map]
    exact hr.some_of_callback hcb
  none_of_beforeMade hpc := Option.map_eq_none_iff.mpr (hr.none_of_beforeMade hpc)
  some_of_made hpc hmd := by
    rw [RunCall.disposeHandle, Option.isSome_map]
    exact hr.some_of_made hpc hmd
  beforeRegister := hr.beforeRegister
  closing := hr.closing
  disposed res h _ hh := by
    obtain ⟨h', -, rfl⟩ := Option.map_eq_some_iff.mp hh
    exact disposed_dispose h'
  aerCancels := hr.aerCancels

/-- The token is cancelled. -/
theorem Ok.cancel (hr : r.Ok) : { r with tokenCancelled := true }.Ok := by
  obtain ⟨h₁, h₂, h₃, h₄, h₅, h₆, h₇, h₈⟩ := hr
  exact ⟨h₁, h₂, h₃, h₄, h₅, h₆, h₇, h₈⟩

/-- Another callback that holds no references leaves the handle as it is. -/
theorem Ok.setCallback (hr : r.Ok) {pc : RunPc} {cb : CallbackPc}
    (hholds : r.callback.holds = false) (hholds' : cb.holds = false)
    (hexecuted : cb.executed = r.callback.executed) (hsome : r.localCancel.isSome = true)
    (hregister : pc.beforeRegister = false) (hmade : pc.beforeMade = false)
    (hclosing : pc.closing = true → cb.settled = true)
    (hfinished : ∀ res, pc ≠ .finished res) :
    { r with pc := pc, callback := cb }.Ok where
  held h hh := by
    have := hr.held h hh
    simp only [CallbackPc.holders, hholds, hholds'] at this ⊢
    exact this
  some_of_callback _ := hsome
  none_of_beforeMade hpc := by rw [hmade] at hpc; cases hpc
  some_of_made hpc := by rw [hregister] at hpc; cases hpc
  beforeRegister hpc := by rw [hregister] at hpc; cases hpc
  closing hpc := .inr (hclosing hpc)
  disposed res h hpc := absurd hpc (hfinished res)
  aerCancels := by rw [hexecuted]; exact hr.aerCancels

end RunCall

section Calls

variable {sh sh' : Shared κ} {k : κ} {r r' : RunCall}

/-- `RunCore` keeps the invariant. -/
theorem RunMove.ok {canBeCanceled : Bool} {a : RunAct}
    (h : RunMove canBeCanceled k sh r a sh' r') (hr : r.Ok) : r'.Ok := by
  cases h with
  | check pc | exchange pc =>
    have hnone : r.localCancel = none := hr.none_of_beforeMade (by rw [pc]; rfl)
    have hcb : r.callback = .unregistered := hr.beforeRegister (by rw [pc]; rfl)
    refine hr.setPc (fun _ => by rw [pc]; rfl) (fun _ => ?_) (fun _ => .inr (.inl hcb))
      fun res h _ hh => by rw [hnone] at hh; cases hh
    split <;> simp_all [RunPc.beforeMade, RunPc.beforeRegister]
  | makeSkipped pc | makeRefused pc | make pc | makeFails pc | store pc | inlineReturned pc
  | inlineThrew pc | runRefused pc | run pc | runReturns pc | clearField pc =>
    refine hr.setPc ?_ ?_ ?_ ?_ <;>
      simp [pc, RunPc.beforeMade, RunPc.beforeRegister, RunPc.closing]
  | makeReturns pc =>
    have hcb : r.callback = .unregistered := hr.beforeRegister (by rw [pc]; rfl)
    refine ⟨?_, fun hne => absurd hcb hne, ?_, fun _ _ => rfl, fun _ => hcb, ?_, ?_,
      hr.aerCancels⟩
    · intro h hh
      obtain rfl := Option.some.inj hh
      rw [hcb]
      exact held_new
    · intro hpc
      cases hpc
    · intro hpc
      cases hpc
    · intro res h hpc
      cases hpc
  | registerInline pc | register pc =>
    have hcb : r.callback = .unregistered := hr.beforeRegister (by rw [pc]; rfl)
    have hsome := hr.some_of_made (by rw [pc]; rfl) (by rw [pc]; rfl)
    exact hr.setCallback (by rw [hcb]; rfl) rfl (by rw [hcb]; rfl) hsome rfl rfl
      (fun hpc => by cases hpc) fun res hpc => by cases hpc
  | removed pc cb =>
    have hsome := hr.some_of_callback (by rw [cb]; exact CallbackPc.noConfusion)
    exact hr.setCallback (by rw [cb]; rfl) rfl (by rw [cb]; rfl) hsome rfl rfl (fun _ => rfl)
      fun res hpc => by cases hpc
  | unregister pc cb =>
    refine hr.setPc ?_ ?_ (fun _ => .inr cb) ?_ <;>
      simp [RunPc.beforeMade, RunPc.beforeRegister]
  | disposeLocal pc =>
    refine hr.disposeHandle.setPc ?_ ?_ (fun _ => .inl ?_) fun res h _ hh => ?_
    · intro hpc
      cases hpc
    · intro hpc
      cases hpc
    · show r.pc.closing = true
      rw [pc]
      rfl
    · obtain ⟨h', -, rfl⟩ := Option.map_eq_some_iff.mp hh
      exact disposed_dispose h'

/-- A native call on the task handle does not dispose of it. -/
theorem RunMove.disposed_eq {can : Bool} {a : RunAct} (h : RunMove can k sh r a sh' r') :
    sh'.handle.disposed = sh.handle.disposed := by
  cases h with
  | make _ _ granted | run _ granted => exact disposed_addRef granted
  | _ => rfl

/-- `Dispose()` leaves the task handle alone until it disposes of it. -/
theorem DisposeMove.handle {pc pc' : DisposePc κ} {a : DisposeAct}
    (h : DisposeMove sh pc a sh' pc') :
    sh'.handle = sh.handle ∨ sh'.handle = sh.handle.dispose := by
  cases h with
  | disposeTask => exact .inr rfl
  | first | again | load | disposeCancel => exact .inl rfl

theorem DisposeMove.disposed_of_finished {pc pc' : DisposePc κ} {a : DisposeAct}
    (h : DisposeMove sh pc a sh' pc') (hpc : pc' = .finished) :
    sh'.handle.disposed = true := by
  cases h with
  | disposeTask => exact disposed_dispose _
  | first | again | load | disposeCancel => cases hpc

/-- While a callback is under way, `RunCore` is between `Register` and the end of
`registration.Dispose()`. -/
theorem RunCall.Ok.open_of_callback (hr : r.Ok) (hne : r.callback ≠ .unregistered)
    (hset : r.callback.settled = false) :
    r.pc.beforeRegister = false ∧ r.pc.closing = false := by
  refine ⟨Bool.eq_false_iff.mpr fun hpc => hne (hr.beforeRegister hpc), ?_⟩
  refine Bool.eq_false_iff.mpr fun hpc => ?_
  rcases hr.closing hpc with hc | hc
  · exact hne hc
  · rw [hset] at hc
    cases hc

/-- A callback that is under way goes on, with the references it then holds. -/
theorem RunCall.Ok.moveCallback (hr : r.Ok) {cb : CallbackPc} {lc : Option SafeHandle} {n : ℕ}
    (hne : r.callback ≠ .unregistered) (hset : r.callback.settled = false)
    (hheld : ∀ h, lc = some h → Held h cb.holders) (hsome : lc.isSome = true)
    (hn : n = if cb.executed then 1 else 0) :
    { r with callback := cb, localCancel := lc, aerCancels := n }.Ok := by
  obtain ⟨hregister, hclosing⟩ := hr.open_of_callback hne hset
  refine ⟨hheld, fun _ => hsome, ?_, fun _ _ => hsome, ?_, ?_, ?_, hn⟩
  · intro hpc
    have hpc : r.pc.beforeRegister = true := RunPc.beforeRegister_of_beforeMade hpc
    rw [hregister] at hpc
    cases hpc
  · intro hpc
    have hpc : r.pc.beforeRegister = true := hpc
    rw [hregister] at hpc
    cases hpc
  · intro hpc
    have hpc : r.pc.closing = true := hpc
    rw [hclosing] at hpc
    cases hpc
  · intro res h hpc
    have hpc : r.pc = .finished res := hpc
    rw [hpc] at hclosing
    cases hclosing

/-- A callback that makes a step is under way. -/
theorem CallbackMove.under_way {a : CallbackAct} (h : CallbackMove r a r') :
    r.callback ≠ .unregistered ∧ r.callback.settled = false := by
  cases h with
  | invoke cb | refused cb | addRef cb | aerCancel cb | release cb =>
    rw [cb]
    exact ⟨CallbackPc.noConfusion, rfl⟩

/-- The callback keeps the invariant. -/
theorem CallbackMove.ok {a : CallbackAct} (h : CallbackMove r a r') (hr : r.Ok) : r'.Ok := by
  obtain ⟨hne, hset⟩ := h.under_way
  have hsome := hr.some_of_callback hne
  have hheld := hr.held
  have hcount := hr.aerCancels
  cases h with
  | invoke cb | refused cb =>
    rw [cb] at hheld hcount
    exact hr.moveCallback hne hset hheld hsome hcount
  | @addRef h h' cb held granted =>
    rw [cb] at hheld hcount
    refine hr.moveCallback hne hset (fun h'' hh => ?_) rfl hcount
    obtain rfl := Option.some.inj hh
    exact (hheld h held).addRef (Finset.notMem_empty ()) granted
  | aerCancel cb =>
    rw [cb] at hheld hcount
    exact hr.moveCallback hne hset hheld hsome (by rw [hcount]; rfl)
  | release cb =>
    rw [cb] at hheld hcount
    refine hr.moveCallback hne hset (fun h hh => ?_) (by rw [Option.isSome_map]; exact hsome)
      hcount
    obtain ⟨h', hh', rfl⟩ := Option.map_eq_some_iff.mp hh
    exact (hheld h' hh').release (x := ()) (Finset.mem_singleton_self ())

end Calls

/-! ### The invariant of the whole -/

/-- **The invariant of the system.** -/
structure State.Ok (w : State κ δ) : Prop where
  /-- Each call is all right. -/
  calls : ∀ k, (w.run k).Ok
  /-- The task handle is used by the calls that are in a native call on it. -/
  task : ∃ H : Finset κ, Held w.shared.handle H ∧ ∀ k, k ∈ H ↔ (w.run k).pc.inNative = true
  /-- It does not outlive `Dispose()`. -/
  disposed : ∀ d, w.dispose d = .finished → w.shared.handle.disposed = true

theorem CallMove.ok {can : Bool} {k : κ} {w : State κ δ} {l : Label κ δ} {r : RunCall}
    (h : CallMove can k w l r) (hr : (w.run k).Ok) : r.Ok := by
  cases h with
  | run h => exact h.ok hr
  | callback h => exact h.ok hr
  | cancel => exact hr.cancel
  | disposeHandle => exact hr.disposeHandle
  | other => exact hr

/-- A callback leaves `RunCore` where it is. -/
theorem CallbackMove.pc_eq {r r' : RunCall} {a : CallbackAct} (h : CallbackMove r a r') :
    r'.pc = r.pc := by
  cases h <;> rfl

section Steps

variable [DecidableEq κ] [DecidableEq δ] {canBeCanceled : κ → Bool} {w w' : State κ δ}
  {l : Label κ δ} {k : κ} {tr : List (Label κ δ)}

/-- A call takes a reference to the task handle for each native call, and gives it back. -/
theorem RunMove.task {can : Bool} {sh sh' : Shared κ} {r r' : RunCall} {a : RunAct}
    (h : RunMove can k sh r a sh' r') {H : Finset κ} (hH : Held sh.handle H)
    (hk : k ∈ H ↔ r.pc.inNative = true) :
    ∃ H', Held sh'.handle H' ∧ (k ∈ H' ↔ r'.pc.inNative = true) ∧ ∀ j ≠ k, j ∈ H' ↔ j ∈ H := by
  cases h with
  | make pc _ granted | run pc granted =>
    rw [pc] at hk
    have hout : k ∉ H := fun hmem => by cases hk.mp hmem
    refine ⟨insert k H, hH.addRef hout granted, ?_, fun j hj => ?_⟩
    · exact ⟨fun _ => rfl, fun _ => Finset.mem_insert_self k H⟩
    · exact Finset.mem_insert.trans (or_iff_right hj)
  | makeReturns pc | makeFails pc | runReturns pc =>
    rw [pc] at hk
    refine ⟨H.erase k, hH.release (hk.mpr rfl), ?_, fun j hj => ?_⟩
    · exact ⟨fun hmem => absurd hmem (Finset.notMem_erase k H), fun hpc => by cases hpc⟩
    · exact Finset.mem_erase.trans (and_iff_right hj)
  | check pc | exchange pc =>
    rw [pc] at hk
    refine ⟨H, hH, hk.trans ?_, fun j _ => Iff.rfl⟩
    split <;> exact Iff.rfl
  | makeSkipped pc | makeRefused pc | store pc | registerInline pc | register pc
  | inlineReturned pc | inlineThrew pc | runRefused pc | removed pc | unregister pc | clearField pc
  | disposeLocal pc =>
    rw [pc] at hk
    exact ⟨H, hH, hk, fun j _ => Iff.rfl⟩

/-- Only `RunCore` goes into a native call on the task handle, or comes back from one. -/
theorem inNative_of_step (h : step canBeCanceled w l = some w') (hl : ∀ a, l ≠ .run k a) :
    (w'.run k).pc.inNative = (w.run k).pc.inNative := by
  have hk := callMove_of_step h k
  generalize w'.run k = r at hk ⊢
  cases hk with
  | run => exact absurd rfl (hl _)
  | callback h => rw [h.pc_eq]
  | cancel | disposeHandle | other => rfl

theorem task_step (h : step canBeCanceled w l = some w') (hw : w.Ok) :
    ∃ H : Finset κ, Held w'.shared.handle H ∧ ∀ k, k ∈ H ↔ (w'.run k).pc.inNative = true := by
  obtain ⟨H, hH, hmem⟩ := hw.task
  have hsame : (∀ k a, l ≠ .run k a) → ∀ k, k ∈ H ↔ (w'.run k).pc.inNative = true := by
    intro hl k
    rw [hmem k, inNative_of_step h (hl k)]
  cases stateMove_of_step h with
  | @run j a hrun frame =>
    obtain ⟨H', hH', hj, hother⟩ := hrun.task hH (hmem j)
    refine ⟨H', hH', fun k => ?_⟩
    by_cases hk : k = j
    · rw [hk]
      exact hj
    · rw [hother k hk, hmem k, frame k hk]
  | dispose hd =>
    refine ⟨H, ?_, hsame fun k a hl => by cases hl⟩
    rcases hd.handle with hh | hh <;> rw [hh]
    · exact hH
    · exact hH.dispose
  | other hl shared =>
    refine ⟨H, ?_, hsame hl⟩
    rw [shared]
    exact hH

/-- A task handle that is disposed of stays so. -/
theorem disposed_mono (h : step canBeCanceled w l = some w')
    (hd : w.shared.handle.disposed = true) : w'.shared.handle.disposed = true := by
  cases stateMove_of_step h with
  | run hrun => exact hrun.disposed_eq.trans hd
  | dispose hdispose =>
    rcases hdispose.handle with hh | hh <;> rw [hh]
    · exact hd
    · exact disposed_dispose _
  | other _ shared => rw [shared]; exact hd

/-- A call of `Dispose()` that ends disposes of the task handle. -/
theorem finished_of_step (h : step canBeCanceled w l = some w') {d : δ}
    (hd : w'.dispose d = .finished) :
    w.dispose d = .finished ∨ w'.shared.handle.disposed = true := by
  cases stateMove_of_step h with
  | run _ _ dispose | other _ _ dispose =>
    rw [dispose] at hd
    exact .inl hd
  | @dispose e a hdispose frame =>
    by_cases he : d = e
    · subst he
      exact .inr (hdispose.disposed_of_finished hd)
    · rw [frame d he] at hd
      exact .inl hd

theorem ok_step (h : step canBeCanceled w l = some w') (hw : w.Ok) : w'.Ok where
  calls k := (callMove_of_step h k).ok (hw.calls k)
  task := task_step h hw
  disposed _ hd := (finished_of_step h hd).elim (fun hf => disposed_mono h (hw.disposed _ hf)) id

theorem ok_of_reaches (h : Reaches canBeCanceled tr w) : w.Ok := by
  refine Lts.exec_invariant (P := fun _ w => w.Ok) ?_ ?_ h
  · exact ⟨fun _ => RunCall.ok_init, ⟨∅, held_new, fun k => by simp [State.init, RunCall.init,
      RunPc.inNative]⟩, fun d hd => by cases hd⟩
  · exact fun tr w l w' _ hw hstep => ok_step hstep hw

end Steps

/-! ### The handles are freed exactly once -/

/-- Each native handle is freed at most once; once nobody needs it any more it has been; and it
is not before. -/
structure HandlesOk (w : State κ δ) : Prop where
  /-- The task handle is freed at most once. -/
  task_le : w.shared.handle.frees ≤ 1
  /-- It has been freed when `Dispose()` has returned and no native call goes on. -/
  task_freed : ∀ d, w.dispose d = .finished → (∀ k, (w.run k).pc.inNative = false) →
    w.shared.handle.frees = 1
  /-- It is there during a native call. -/
  task_alive : ∀ k, (w.run k).pc.inNative = true → w.shared.handle.frees = 0
  /-- A cancel handle is freed at most once. -/
  cancel_le : ∀ k h, (w.run k).localCancel = some h → h.frees ≤ 1
  /-- It has been freed when its `RunCore` has ended. -/
  cancel_freed : ∀ k res h, (w.run k).pc = .finished res → (w.run k).localCancel = some h →
    h.frees = 1
  /-- It is there during `aer_cancel`. -/
  cancel_alive : ∀ k h, (w.run k).callback.holds = true → (w.run k).localCancel = some h →
    h.frees = 0

theorem holders_of_idle {cb : CallbackPc} (h : cb = .unregistered ∨ cb.settled = true) :
    cb.holders = ∅ := by
  cases cb with
  | unregistered | returned | threw | removed => rfl
  | pending | invoked | calling | cancelled => rcases h with h | h <;> cases h

theorem handlesOk {w : State κ δ} (hw : w.Ok) : HandlesOk w := by
  obtain ⟨H, hH, hmem⟩ := hw.task
  refine ⟨hH.frees_le_one, fun d hd hnone => ?_, fun k hk => ?_, fun k h hh => ?_,
    fun k res h hpc hh => ?_, fun k h hcb hh => ?_⟩
  · refine hH.frees_eq_one_iff.mpr ⟨hw.disposed d hd, Finset.eq_empty_iff_forall_notMem.mpr ?_⟩
    intro k hk
    have := (hmem k).mp hk
    rw [hnone k] at this
    cases this
  · exact hH.frees_eq_zero ((hmem k).mpr hk)
  · exact ((hw.calls k).held h hh).frees_le_one
  · refine ((hw.calls k).held h hh).frees_eq_one_iff.mpr ⟨(hw.calls k).disposed res h hpc hh, ?_⟩
    exact holders_of_idle ((hw.calls k).closing (by rw [hpc]; rfl))
  · refine ((hw.calls k).held h hh).frees_eq_zero (x := ()) ?_
    rw [CallbackPc.holders, if_pos hcb]
    exact Finset.mem_singleton_self ()

/-- **Each native handle is freed exactly once**, whatever the interleaving. -/
theorem handlesOk_of_reaches [DecidableEq κ] [DecidableEq δ] {canBeCanceled : κ → Bool}
    {tr : List (Label κ δ)} {w : State κ δ} (h : Reaches canBeCanceled tr w) : HandlesOk w :=
  handlesOk (ok_of_reaches h)

/-! ### There is one cancel handle -/

/-- It is in the `try` statement. -/
def RunPc.inTry : RunPc → Bool
  | .idle | .checked | .finished _ => false
  | _ => true

/-- The call has found `hasRunFlag` down. -/
def RunCall.Started (r : RunCall) : Prop := r.pc.inTry = true ∨ r.localCancel.isSome = true

/-- The flag is up once a call has found it down, and no other call does. -/
def OneRun (w : State κ δ) : Prop :=
  ∃ o : Option κ, w.shared.hasRun = o.isSome ∧ ∀ k, (w.run k).Started → o = some k

theorem isSome_of_disposeHandle {r : RunCall} (h : r.disposeHandle.localCancel.isSome = true) :
    r.localCancel.isSome = true := by
  rwa [RunCall.disposeHandle, Option.isSome_map] at h

/-- A call is started by the exchange and by nothing else. -/
theorem RunMove.started {can : Bool} {k : κ} {sh sh' : Shared κ} {r r' : RunCall} {a : RunAct}
    (h : RunMove can k sh r a sh' r') (hr : r.Ok) :
    (sh'.hasRun = sh.hasRun ∧ (r'.Started → r.Started)) ∨
      (sh'.hasRun = true ∧ (r'.Started → sh.hasRun = false)) := by
  cases h with
  | exchange pc =>
    have hnone : r.localCancel = none := hr.none_of_beforeMade (by rw [pc]; rfl)
    refine .inr ⟨rfl, ?_⟩
    rintro (hs | hs)
    · cases hrun : sh.hasRun with
      | false => rfl
      | true => rw [hrun] at hs; cases hs
    · rw [hnone] at hs
      cases hs
  | check pc =>
    refine .inl ⟨rfl, ?_⟩
    rintro (hs | hs)
    · split at hs <;> cases hs
    · exact .inr hs
  | makeSkipped pc | makeRefused pc | make pc | makeReturns pc | makeFails pc | store pc
  | registerInline pc | register pc | inlineReturned pc | inlineThrew pc | runRefused pc | run pc
  | runReturns pc | removed pc | unregister pc | clearField pc | disposeLocal pc =>
    exact .inl ⟨rfl, fun _ => .inl (by rw [pc]; rfl)⟩

theorem DisposeMove.hasRun_eq {sh sh' : Shared κ} {pc pc' : DisposePc κ} {a : DisposeAct}
    (h : DisposeMove sh pc a sh' pc') : sh'.hasRun = sh.hasRun := by
  cases h <;> rfl

section OneRun

variable [DecidableEq κ] [DecidableEq δ] {canBeCanceled : κ → Bool} {w w' : State κ δ}
  {l : Label κ δ} {k : κ} {tr : List (Label κ δ)}

theorem started_of_step (h : step canBeCanceled w l = some w') (hl : ∀ a, l ≠ .run k a)
    (hs : (w'.run k).Started) : (w.run k).Started := by
  have hk := callMove_of_step h k
  generalize w'.run k = r at hk hs
  cases hk with
  | run => exact absurd rfl (hl _)
  | callback h =>
    cases h with
    | addRef _ held => exact hs.imp id fun _ => by rw [held]; rfl
    | release => exact hs.imp id fun hs => by rwa [Option.isSome_map] at hs
    | invoke | refused | aerCancel => exact hs
  | cancel => exact hs
  | disposeHandle => exact hs.imp id isSome_of_disposeHandle
  | other => exact hs

theorem oneRun_step (h : step canBeCanceled w l = some w') (hw : w.Ok) (ho : OneRun w) :
    OneRun w' := by
  obtain ⟨o, hrun, hall⟩ := ho
  have hother : (∀ k a, l ≠ .run k a) → ∀ k, (w'.run k).Started → o = some k :=
    fun hl k hs => hall k (started_of_step h (hl k) hs)
  cases stateMove_of_step h with
  | @run j a hmove frame =>
    have hframe : ∀ k ≠ j, (w'.run k).Started → o = some k := by
      intro k hk hs
      rw [frame k hk] at hs
      exact hall k hs
    rcases hmove.started (hw.calls j) with ⟨heq, hj⟩ | ⟨hup, hj⟩
    · refine ⟨o, heq.trans hrun, fun k hs => ?_⟩
      by_cases hk : k = j
      · subst hk
        exact hall k (hj hs)
      · exact hframe k hk hs
    · cases hup' : w.shared.hasRun with
      | true =>
        refine ⟨o, by rw [hup, ← hrun, hup'], fun k hs => ?_⟩
        by_cases hk : k = j
        · subst hk
          have := hj hs
          rw [hup'] at this
          cases this
        · exact hframe k hk hs
      | false =>
        -- nobody has started yet, so `j` is the first one
        refine ⟨some j, hup, fun k hs => ?_⟩
        by_cases hk : k = j
        · rw [hk]
        · rw [hup', hframe k hk hs] at hrun
          cases hrun
  | dispose hmove =>
    exact ⟨o, hmove.hasRun_eq.trans hrun, hother fun k a hl => by cases hl⟩
  | other hl shared => exact ⟨o, by rw [shared]; exact hrun, hother hl⟩

/-- **There is at most one cancel handle**: `aer_task_run` uses the one that its `RunCore` made. -/
theorem one_cancel_handle (h : Reaches canBeCanceled tr w) {j : κ}
    (hj : (w.run j).localCancel.isSome = true) (hk : (w.run k).localCancel.isSome = true) :
    j = k := by
  have ho : OneRun w := by
    refine Lts.exec_invariant (P := fun _ w => OneRun w) ?_ ?_ h
    · refine ⟨none, rfl, ?_⟩
      rintro k (hs | hs) <;> cases hs
    · exact fun tr w l w' hr ho hstep => oneRun_step hstep (ok_of_reaches hr) ho
  obtain ⟨o, -, hall⟩ := ho
  exact Option.some.inj ((hall j (.inr hj)).symm.trans (hall k (.inr hk)))

end OneRun

/-! ### What becomes of the callback -/

/-- The handle that the call has made is disposed of. -/
def RunCall.handleDisposed (r : RunCall) : Bool := r.localCancel.any SafeHandle.disposed

/-- `aer_cancel` will not be executed any more: the callback waits with a handle that is disposed
of, or has thrown or been removed. -/
def RunCall.Lost (r : RunCall) : Prop :=
  (r.callback.waits = true ∧ r.handleDisposed = true) ∨ r.callback = .threw ∨ r.callback = .removed

/-- The step does not take the handle of call `k` away from its callback: `Dispose()` does not
dispose of it, nor is the callback removed, while the callback waits. -/
def KeepsHandle (k : κ) (w : State κ δ) : Label κ δ → Prop
  | .dispose d .disposeCancel =>
      w.dispose d = .loaded (some k) → (w.run k).callback.waits = false
  | .run j .unregister => j = k → (w.run k).callback ≠ .pending
  | _ => True

instance decidableKeepsHandle [DecidableEq κ] (k : κ) (w : State κ δ) :
    (l : Label κ δ) → Decidable (KeepsHandle k w l)
  | .dispose d .disposeCancel =>
      inferInstanceAs (Decidable (w.dispose d = .loaded (some k) → _ = _))
  | .run j .unregister => inferInstanceAs (Decidable (j = k → _ ≠ _))
  | .run _ .check | .run _ .exchange | .run _ .make | .run _ (.makeReturns _) | .run _ .store
  | .run _ .register | .run _ .registerReturns | .run _ .run | .run _ (.runReturns _)
  | .run _ .clearField | .run _ .disposeLocal | .callback _ _ | .cancel _
  | .dispose _ .exchange | .dispose _ .load | .dispose _ .disposeTask => isTrue trivial

/-- The callback is registered, and `aer_task_run` has not returned. -/
def RunCall.InWindow (r : RunCall) : Prop :=
  r.callback = .pending ∧ (r.pc = .ready ∨ r.pc = .running)

theorem CallbackPc.waits_of_settled {cb : CallbackPc} (h : cb.settled = true) :
    cb.waits = false := by
  cases cb <;> first | rfl | cases h

instance (r : RunCall) : Decidable r.InWindow :=
  inferInstanceAs (Decidable (_ ∧ _))

section Lost

variable {k : κ} {r r' : RunCall}

theorem lost_congr (hcb : r'.callback = r.callback) (hlc : r'.localCancel = r.localCancel) :
    r'.Lost ↔ r.Lost := by
  unfold RunCall.Lost RunCall.handleDisposed
  rw [hcb, hlc]

theorem lost_iff_of_not_waits (h : r.callback.waits = false) :
    r.Lost ↔ r.callback = .threw ∨ r.callback = .removed := by
  unfold RunCall.Lost
  rw [h]
  simp

/-- `RunCore` loses the cancellation only by removing the callback. -/
theorem RunMove.lost {can : Bool} {sh sh' : Shared κ} {a : RunAct}
    (h : RunMove can k sh r a sh' r') (hr : r.Ok) (hne : r.callback ≠ .unregistered) :
    r'.Lost ↔ r.Lost ∨ (a = .unregister ∧ r.callback = .pending) := by
  have hearly : r.pc.beforeRegister ≠ true := fun hpc => hne (hr.beforeRegister hpc)
  cases h with
  | check pc | exchange pc | makeSkipped pc | makeRefused pc | make pc | makeReturns pc
  | makeFails pc | store pc | registerInline pc | register pc =>
    exact absurd (by rw [pc]; rfl) hearly
  | inlineReturned | inlineThrew | runRefused | run | runReturns | clearField =>
    refine (lost_congr rfl rfl).trans (or_iff_left ?_).symm
    rintro ⟨ha, -⟩
    cases ha
  | removed pc cb => exact iff_of_true (.inr (.inr rfl)) (.inr ⟨rfl, cb⟩)
  | unregister pc cb =>
    have hcb : r.callback ≠ .pending := by
      rintro hc
      rw [hc] at cb
      rcases cb with cb | cb <;> cases cb
    exact (lost_congr rfl rfl).trans (or_iff_left fun h => hcb h.2).symm
  | @disposeLocal res pc =>
    have hset := (hr.closing (by rw [pc]; rfl)).resolve_left hne
    have hwaits := CallbackPc.waits_of_settled hset
    have hside : ¬(RunAct.disposeLocal = .unregister ∧ r.callback = .pending) := by
      rintro ⟨ha, -⟩
      cases ha
    rw [or_iff_left hside, lost_iff_of_not_waits hwaits]
    exact lost_iff_of_not_waits hwaits

/-- The callback itself loses nothing: it throws only when the handle is disposed of. -/
theorem CallbackMove.lost {a : CallbackAct} (h : CallbackMove r a r') (hr : r.Ok) :
    r'.Lost ↔ r.Lost := by
  cases h with
  | invoke cb =>
    unfold RunCall.Lost RunCall.handleDisposed
    rw [cb]
    simp [CallbackPc.waits]
  | @refused h cb held refused =>
    refine iff_of_true (.inr (.inl rfl)) (.inl ⟨by rw [cb]; rfl, ?_⟩)
    rw [RunCall.handleDisposed, held]
    exact ((hr.held h held).addRef_eq_none_iff.mp refused).1
  | @addRef h h' cb held granted =>
    have hlive : ¬(h.disposed = true) := by
      intro hd
      have hnone : r.callback.holders = ∅ := by rw [cb]; rfl
      have := (hr.held h held).addRef_eq_none_iff.mpr ⟨hd, hnone⟩
      rw [granted] at this
      cases this
    refine iff_of_false ?_ ?_
    · rw [lost_iff_of_not_waits rfl]
      rintro (hc | hc) <;> cases hc
    · unfold RunCall.Lost RunCall.handleDisposed
      rw [cb, held]
      rintro (⟨-, hd⟩ | hc | hc)
      · exact hlive hd
      · cases hc
      · cases hc
  | aerCancel cb | release cb =>
    rw [lost_iff_of_not_waits rfl, lost_iff_of_not_waits (r := r) (by rw [cb]; rfl), cb]
    simp

/-- `Dispose()` loses the cancellation if the callback waits. -/
theorem lost_disposeHandle (hr : r.Ok) :
    r.disposeHandle.Lost ↔ r.Lost ∨ r.callback.waits = true := by
  cases hw : r.callback.waits with
  | false =>
    rw [or_iff_left (by simp), lost_iff_of_not_waits hw]
    exact lost_iff_of_not_waits hw
  | true =>
    refine iff_of_true (.inl ⟨hw, ?_⟩) (.inr rfl)
    have hne : r.callback ≠ .unregistered := by
      rintro hc
      rw [hc] at hw
      cases hw
    obtain ⟨h, hh⟩ := Option.isSome_iff_exists.mp (hr.some_of_callback hne)
    simp [RunCall.handleDisposed, RunCall.disposeHandle, hh]

end Lost

section Runs

variable [DecidableEq κ] [DecidableEq δ] {canBeCanceled : κ → Bool} {w w' w₁ : State κ δ}
  {l : Label κ δ} {k : κ} {tr tr₁ tr₂ : List (Label κ δ)}

/-- A callback that has been registered stays so. -/
theorem registered_of_step (h : step canBeCanceled w l = some w')
    (hne : (w.run k).callback ≠ .unregistered) : (w'.run k).callback ≠ .unregistered := by
  have hk := callMove_of_step h k
  generalize w'.run k = r at hk ⊢
  cases hk with
  | run h =>
    cases h with
    | registerInline | register | removed => exact CallbackPc.noConfusion
    | _ => exact hne
  | callback h => cases h <;> exact CallbackPc.noConfusion
  | cancel | disposeHandle | other => exact hne

/-- **A step loses the cancellation exactly when it does not keep the handle.** -/
theorem lost_step (h : step canBeCanceled w l = some w') (hw : w.Ok)
    (hne : (w.run k).callback ≠ .unregistered) :
    (w'.run k).Lost ↔ (w.run k).Lost ∨ ¬KeepsHandle k w l := by
  have hk := callMove_of_step h k
  generalize w'.run k = r at hk ⊢
  cases hk with
  | @run a sh _ h =>
    rw [h.lost (hw.calls k) hne]
    cases a <;> simp [KeepsHandle]
  | callback h =>
    rw [h.lost (hw.calls k)]
    simp [KeepsHandle]
  | cancel => exact (lost_congr rfl rfl).trans (or_iff_left fun hn => hn trivial).symm
  | disposeHandle loaded =>
    rw [lost_disposeHandle (hw.calls k)]
    simp [KeepsHandle, loaded]
  | other run dispose =>
    refine (or_iff_left fun hn => hn ?_).symm
    cases l with
    | run j a =>
      cases a with
      | unregister =>
        rintro rfl
        exact absurd rfl (run .unregister)
      | _ => trivial
    | callback | cancel => trivial
    | dispose d a =>
      cases a with
      | disposeCancel => exact fun hd => absurd hd (dispose d rfl)
      | exchange | load | disposeTask => trivial

/-- How many steps the callback has before it. -/
def CallbackPc.left : CallbackPc → ℕ
  | .pending => 4
  | .invoked => 3
  | .calling => 2
  | .cancelled => 1
  | .unregistered | .returned | .threw | .removed => 0

/-- The callback of a token that has been cancelled never waits for another thread. -/
theorem callback_advances {r : RunCall} (hr : r.Ok) (hcancelled : r.tokenCancelled = true)
    (hne : r.callback ≠ .unregistered) :
    r.callback.settled = true ∨ ∃ a r', callbackStep r a = some r' ∧ r'.tokenCancelled = true ∧
      r'.callback ≠ .unregistered ∧ r'.callback.left < r.callback.left := by
  cases hcb : r.callback with
  | unregistered => exact absurd hcb hne
  | pending =>
    refine .inr ⟨.invoke, { r with callback := .invoked }, ?_, hcancelled, ?_, ?_⟩
    · simp [callbackStep, hcb, hcancelled]
    · exact CallbackPc.noConfusion
    · simp [CallbackPc.left]
  | invoked =>
    obtain ⟨h, hh⟩ := Option.isSome_iff_exists.mp (hr.some_of_callback hne)
    cases hadd : h.addRef with
    | none =>
      refine .inr ⟨.addRef, { r with callback := .threw }, ?_, hcancelled, ?_, ?_⟩
      · simp [callbackStep, hcb, hh, hadd]
      · exact CallbackPc.noConfusion
      · simp [CallbackPc.left]
    | some h' =>
      refine .inr ⟨.addRef, { r with callback := .calling, localCancel := some h' }, ?_,
        hcancelled, ?_, ?_⟩
      · simp [callbackStep, hcb, hh, hadd]
      · exact CallbackPc.noConfusion
      · simp [CallbackPc.left]
  | calling =>
    refine .inr ⟨.aerCancel, { r with callback := .cancelled, aerCancels := r.aerCancels + 1 }, ?_,
      hcancelled, ?_, ?_⟩
    · simp [callbackStep, hcb]
    · exact CallbackPc.noConfusion
    · simp [CallbackPc.left]
  | cancelled =>
    refine .inr ⟨.release, { r with
      callback := .returned, localCancel := r.localCancel.map SafeHandle.release }, ?_,
      hcancelled, ?_, ?_⟩
    · simp [callbackStep, hcb]
    · exact CallbackPc.noConfusion
    · simp [CallbackPc.left]
  | returned | threw | removed => exact .inl rfl

/-- **The callback comes to an end on its own**, once its token has been cancelled. -/
theorem leads_to_settled (h : Reaches canBeCanceled tr w)
    (hcancelled : (w.run k).tokenCancelled = true) (hne : (w.run k).callback ≠ .unregistered) :
    Lts.Leads (step canBeCanceled) (fun l => ∃ a, l = .callback k a) w
      fun w => (w.run k).callback.settled = true := by
  refine Lts.leads_of_measure (fun w => (w.run k).callback.left)
    (I := fun w => w.Ok ∧ (w.run k).tokenCancelled = true ∧ (w.run k).callback ≠ .unregistered)
    ?_ ⟨ok_of_reaches h, hcancelled, hne⟩
  rintro w ⟨hw, hcancelled, hne⟩
  rcases callback_advances (hw.calls k) hcancelled hne with
    hset | ⟨a, r', hstep, hcancelled', hne', hlt⟩
  · exact .inl hset
  · have hs : step canBeCanceled w (.callback k a) = some (w.setRun k r') := by
      simp [step, hstep]
    refine .inr ⟨_, _, ⟨a, rfl⟩, hs, ⟨ok_step hs hw, ?_, ?_⟩, ?_⟩ <;> rw [run_setRun_self]
    · exact hcancelled'
    · exact hne'
    · exact hlt

/-- A settled callback has executed `aer_cancel` unless the cancellation is lost. -/
theorem RunCall.Ok.aerCancels_eq_one_iff {r : RunCall} (hr : r.Ok)
    (hset : r.callback.settled = true) : r.aerCancels = 1 ↔ ¬r.Lost := by
  rw [hr.aerCancels, lost_iff_of_not_waits (CallbackPc.waits_of_settled hset)]
  cases hc : r.callback <;> rw [hc] at hset <;> first | decide | cases hset

/-- **Which cancellations reach the native run.**  Let the token of a call be cancelled after its
callback is registered and before `aer_task_run` returns.  Once the callback is settled,
`aer_cancel` has been executed on the handle of this call, each native handle being freed exactly
once, if and only if `Dispose()` had not disposed of the handle before and no step since has taken
it away from the callback. -/
theorem aerCancel_iff (h₁ : Reaches canBeCanceled tr₁ w₁) (hwin : (w₁.run k).InWindow)
    (h₂ : Lts.exec (step canBeCanceled) w₁ (.cancel k :: tr₂) = some w)
    (hset : (w.run k).callback.settled = true) :
    ((w.run k).aerCancels = 1 ∧ HandlesOk w) ↔
      (w₁.run k).handleDisposed = false ∧
        Lts.Along (step canBeCanceled) (KeepsHandle k) w₁ (.cancel k :: tr₂) := by
  have hw₁ := ok_of_reaches h₁
  have hw := ok_of_reaches (Lts.exec_append_eq_some.mpr ⟨w₁, h₁, h₂⟩)
  have hne : (w₁.run k).callback ≠ .unregistered := by
    rw [hwin.1]
    exact CallbackPc.noConfusion
  have hlost : (w₁.run k).Lost ↔ (w₁.run k).handleDisposed = true := by
    unfold RunCall.Lost
    rw [hwin.1]
    simp [CallbackPc.waits]
  have hbad := Lts.exec_bad_iff (I := fun w => w.Ok ∧ (w.run k).callback ≠ .unregistered)
    (B := fun w => (w.run k).Lost) (C := KeepsHandle k)
    (fun s l s' hI hs => ⟨⟨ok_step hs hI.1, registered_of_step hs hI.2⟩,
      lost_step hs hI.1 hI.2⟩) ⟨hw₁, hne⟩ h₂
  rw [and_iff_left (handlesOk hw), (hw.calls k).aerCancels_eq_one_iff hset, hbad, hlost, not_or,
    not_not, Bool.not_eq_true]

end Runs

/-- A call of `RunCore` as far as `aer_task_run`. -/
def startedRun : List (Label Unit Unit) :=
  [.run () .check, .run () .exchange, .run () .make, .run () (.makeReturns true), .run () .store,
    .run () .register, .run () .run]

/-- A call of `Dispose()`. -/
def disposal : List (Label Unit Unit) :=
  [.dispose () .exchange, .dispose () .load, .dispose () .disposeCancel, .dispose () .disposeTask]

/-- The callback, `Dispose()` after it has taken its reference, and the end of the call. -/
def cancelledRun : List (Label Unit Unit) :=
  [.callback () .invoke, .callback () .addRef] ++ disposal ++
    [.callback () .aerCancel, .callback () .release, .run () (.runReturns .cancelled),
      .run () .unregister, .run () .clearField, .run () .disposeLocal]

/-- The callback keeps the handle that it has a reference to. -/
theorem cancelledRun_reaches_run :
    ∃ w₁ w, Reaches (fun _ => true) startedRun w₁ ∧
      Lts.exec (step fun _ => true) w₁ (.cancel () :: cancelledRun) = some w ∧
      (w.run ()).pc = .finished (.error (.aer .cancelled)) ∧
      (w.run ()).aerCancels = 1 ∧ HandlesOk w := by
  obtain ⟨w₁, h₁, hwin, hlive, hkeeps, hany⟩ :
      ∃ w₁, Reaches (fun _ => true) startedRun w₁ ∧ (w₁.run ()).InWindow ∧
        (w₁.run ()).handleDisposed = false ∧
        Lts.Along (step fun _ => true) (KeepsHandle ()) w₁ (.cancel () :: cancelledRun) ∧
        (Lts.exec (step fun _ => true) w₁ (.cancel () :: cancelledRun)).any
          (fun w => decide ((w.run ()).pc = .finished (.error (.aer .cancelled)) ∧
            (w.run ()).callback.settled = true)) = true :=
    Lts.exists_exec_of_any (by decide +kernel)
  obtain ⟨w, h₂, hpc, hset⟩ := Lts.exists_exec_of_any hany
  exact ⟨w₁, w, h₁, h₂, hpc, (aerCancel_iff h₁ hwin h₂ hset).mpr ⟨hlive, hkeeps⟩⟩

/-- **`Dispose()` detaches the cancellation.**  It comes while `aer_task_run` runs; the callback
throws, `aer_cancel` is not executed, and the run ends as if nothing had happened. -/
theorem disposedRun_is_not_cancelled :
    ∃ w₁ w, Reaches (fun _ => true) (startedRun ++ disposal) w₁ ∧ (w₁.run ()).InWindow ∧
      Lts.exec (step fun _ => true) w₁ [.cancel (), .callback () .invoke, .callback () .addRef,
        .run () (.runReturns .ok), .run () .unregister, .run () .clearField,
        .run () .disposeLocal] = some w ∧
      (w.run ()).pc = .finished (.ok ()) ∧ (w.run ()).callback = .threw ∧
      (w.run ()).aerCancels = 0 := by
  obtain ⟨w₁, h₁, hwin, hany⟩ :
      ∃ w₁, Reaches (fun _ => true) (startedRun ++ disposal) w₁ ∧ (w₁.run ()).InWindow ∧
        (Lts.exec (step fun _ => true) w₁ [.cancel (), .callback () .invoke, .callback () .addRef,
          .run () (.runReturns .ok), .run () .unregister, .run () .clearField,
          .run () .disposeLocal]).any
          (fun w => decide ((w.run ()).pc = .finished (.ok ()) ∧ (w.run ()).callback = .threw ∧
            (w.run ()).aerCancels = 0)) = true :=
    Lts.exists_exec_of_any (by decide +kernel)
  obtain ⟨w, h₂, hw⟩ := Lts.exists_exec_of_any hany
  exact ⟨w₁, w, h₁, hwin, h₂, hw⟩

end AerCore.Managed
