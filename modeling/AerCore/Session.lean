import AerCore.Chain
import AerCore.Natural
import Mathlib.Data.List.TakeWhile

/-!
# Cancel handles behind the C interface

`aer_task_make_cancel_handle` makes a new `CancelHandle` at every call, gives one clone to
its caller and leaves the other in the task, where it takes the place of the one before.
`aer_task_run` reads that place once.  So of all the handles that have been given out, the
run uses the last; the others have slots of their own, which nobody ever stores to.

A session is the calls on one task, the run they start, and the threads that are in
`aer_cancel` meanwhile.  To the run and the handle it uses, it looks like a `World`.

## Main definitions

* `Session`, `SessionLabel`, `Session.step` — one task and its handles.
* `Session.world x`, `project x hist` — what the session looks like from handle `x`.
* `lastMade hist` — the handle that was made last before `aer_task_run`.
* `CancelWorks` — the tree is killed, and the run says why.

## Main results

* `projects_of_session` — from its own handle, the run is a run of the system.
* `remembers_of_session` — the run uses the handle that was made last.
* `cancel_works_iff_made_last` — **which cancel handles work**.
* `firstHandle_is_forgotten` — a handle that was made before the last does not.
-/

namespace AerCore

/-! ### Sessions -/

/-- The calls on one task, and what goes on meanwhile. -/
structure Session where
  /-- The state behind the interface. -/
  ffi : Ffi
  /-- What `aer_task_run` has read of the task: the configuration and the cancel handle. -/
  entered : Option (RunConfig × Option ℕ)
  /-- The run. -/
  run : Run
  /-- The shared state of each cancel handle; `none` stands for a run without one. -/
  handle : Option ℕ → CancelHandle Unit
  /-- The threads that are in `aer_cancel`, for each handle. -/
  callers : Option ℕ → CallerId Unit → Caller Unit

/-- A step of a session. -/
inductive SessionLabel
  /-- A call on the task, and its answer. -/
  | call (c : Call) (r : Ret)
  /-- A step of the run or of its processes. -/
  | run (l : Label Unit)
  /-- A step of `aer_cancel` on a handle. -/
  | cancel (h : ℕ) (k : CallerId Unit) (a : CancelAct Unit)

/-- What `aer_task_run` reads of the task. -/
def AerTask.reads (t : AerTask) : Option (RunConfig × Option ℕ) :=
  t.inner.map fun inner =>
    (⟨inner.timeout, inner.captureOutput, t.cancel.isSome⟩, t.cancel)

/-- `aer_task_run` sees the outcome of `run_impl` as a result or as a panic. -/
def Outcome.seenAs : Outcome → RunOutcome → Bool
  | .ret res, .returned res' => decide (res = res')
  | .unwound, .panicked _ => true
  | _, _ => false

namespace Session

/-- The task has been created. -/
def init (env : Env) (t : Task) : Session where
  ffi := { Ffi.init with tasks := [some ⟨some t, false, none⟩] }
  entered := none
  run := Run.init env
  handle := fun _ => .new
  callers := fun _ _ => .idle

/-- What the session looks like from handle `x`. -/
def world (s : Session) (x : Option ℕ) : World Unit := ⟨s.handle x, s.callers x, fun _ => s.run⟩

/-- The session after a step in the world of handle `x`. -/
def put (s : Session) (x : Option ℕ) (w : World Unit) : Session :=
  { s with
    run := w.runs ()
    handle := Function.update s.handle x w.handle
    callers := Function.update s.callers x w.callers }

/-- The callback is in no call of `aer_cancel`. -/
def callbackIdle (s : Session) : Bool :=
  (List.range s.ffi.handles.length).all fun h =>
    decide (s.callers (some h) (.callback ()) = .idle)

/-- The step is one of the run; a call of the callback ends only when its `aer_cancel` has
returned. -/
def goesOn (s : Session) : Label Unit → Bool
  | .cancel _ _ => false
  | .main _ a => !a.endsCallback || s.callbackIdle
  | _ => true

/-- Nobody uses a handle that has been freed, and the callback makes one call at a time. -/
def mayCancel (s : Session) (h : ℕ) (k : CallerId Unit) (a : CancelAct Unit) : Bool :=
  decide (s.ffi.handles[h]? = some true) &&
    match k, a with
    | .callback _, .swap _ => s.callbackIdle
    | _, _ => true

/-- The calls of a session.  While the run lasts it uses the task, so handles are made before
it and the task is freed after it. -/
def admits (s : Session) : Call → Bool
  | .new _ _ _ _ | .cancel _ _ => false
  | .makeCancelHandle _ _ | .taskFree _ => s.ffi.running.isEmpty
  | .runReturns o =>
      match s.run.main with
      | .finished o' => o'.seenAs o
      | _ => false
  | _ => true

/-- What `aer_task_run` reads when it is entered. -/
def reads (s : Session) : Call → Option (RunConfig × Option ℕ)
  | .run (some p) => (s.ffi.task? p).bind AerTask.reads
  | _ => none

/-- One step of a session. -/
def step (env : Env) (strerror : ℤ → String) (s : Session) : SessionLabel → Option Session
  | .call c r =>
      if s.admits c then
        (call strerror s.ffi c).bind fun (ffi, r') =>
          if r' = r then
            some { s with ffi := ffi, entered := if r = .entered then s.reads c else s.entered }
          else none
      else none
  | .run l =>
      match s.entered with
      | some (c, x) =>
          if s.goesOn l then (AerCore.step env (fun _ => c) (s.world x) l).map (s.put x) else none
      | none => none
  | .cancel h k a =>
      if s.mayCancel h k a then
        (cancelStep env (s.world (some h)) k a).map (s.put (some h))
      else none

end Session

/-- What a step of a session can do. -/
inductive SessionMove (env : Env) (strerror : ℤ → String) (s : Session) :
    SessionLabel → Session → Prop
  | call {c r ffi} (admits : s.admits c = true) (h : call strerror s.ffi c = some (ffi, r)) :
      SessionMove env strerror s (.call c r)
        { s with ffi := ffi, entered := if r = .entered then s.reads c else s.entered }
  | run {l c x w} (entered : s.entered = some (c, x)) (mine : ∀ k a, l ≠ .cancel k a)
      (h : step env (fun _ => c) (s.world x) l = some w) :
      SessionMove env strerror s (.run l) (s.put x w)
  | cancel {n k a w} (h : cancelStep env (s.world (some n)) k a = some w) :
      SessionMove env strerror s (.cancel n k a) (s.put (some n) w)

section Moves

variable {env : Env} {strerror : ℤ → String} {s s' : Session} {l : SessionLabel}

theorem sessionMove_of_step (h : s.step env strerror l = some s') :
    SessionMove env strerror s l s' := by
  cases l with
  | call c r =>
    obtain ⟨hc, h⟩ := Option.ite_none_right_eq_some.mp h
    obtain ⟨⟨ffi, r'⟩, hcall, h⟩ := Option.bind_eq_some_iff.mp h
    obtain ⟨rfl, h⟩ := Option.ite_none_right_eq_some.mp h
    cases h
    exact .call hc hcall
  | run l =>
    simp only [Session.step] at h
    split at h
    · next c x entered =>
      obtain ⟨hl, h⟩ := Option.ite_none_right_eq_some.mp h
      obtain ⟨w, hw, h⟩ := Option.map_eq_some_iff.mp h
      cases h
      refine .run entered ?_ hw
      rintro k a rfl
      cases hl
    · cases h
  | cancel h' k a =>
    obtain ⟨-, h⟩ := Option.ite_none_right_eq_some.mp h
    obtain ⟨w, hw, h⟩ := Option.map_eq_some_iff.mp h
    cases h
    exact .cancel hw

@[simp] theorem Session.world_put_self (s : Session) (x : Option ℕ) (w : World Unit) :
    (s.put x w).world x = w := by
  simp [Session.world, Session.put]

theorem Session.world_put_ne (s : Session) {x y : Option ℕ} (w : World Unit) (h : y ≠ x) :
    (s.put x w).world y = ⟨s.handle y, s.callers y, w.runs⟩ := by
  simp [Session.world, Session.put, Function.update_of_ne h]

end Moves

/-! ### The session from one of its handles -/

/-- The step that a step of the session is in the world of handle `x`. -/
def project? (x : Option ℕ) : SessionLabel → Option (Label Unit)
  | .call _ _ | .run (.cancel _ _) => none
  | .run l => some l
  | .cancel h k a => if some h = x then some (.cancel k a) else none

/-- The steps of the session in the world of handle `x`. -/
def project (x : Option ℕ) (hist : List SessionLabel) : List (Label Unit) :=
  hist.filterMap (project? x)

@[simp] theorem project_append (x : Option ℕ) (hist hist' : List SessionLabel) :
    project x (hist ++ hist') = project x hist ++ project x hist' :=
  List.filterMap_append

theorem project?_run (x : Option ℕ) {l : Label Unit} (hl : ∀ k a, l ≠ .cancel k a) :
    project? x (.run l) = some l := by
  cases l with
  | cancel k a => exact absurd rfl (hl k a)
  | _ => rfl

theorem mem_project_run {x : Option ℕ} {hist : List SessionLabel} {l : Label Unit}
    (hl : ∀ k a, l ≠ .cancel k a) : l ∈ project x hist ↔ .run l ∈ hist := by
  simp only [project, List.mem_filterMap]
  refine ⟨fun ⟨m, hm, hml⟩ => ?_, fun h => ⟨_, h, project?_run x hl⟩⟩
  cases m with
  | call => cases hml
  | run m =>
    cases m with
    | cancel => cases hml
    | _ => cases hml; exact hm
  | cancel h k a =>
    obtain ⟨-, h⟩ := Option.ite_none_right_eq_some.mp hml
    cases h
    exact absurd rfl (hl k a)

theorem mem_project_cancel {x : Option ℕ} {hist : List SessionLabel} {k : CallerId Unit}
    {a : CancelAct Unit} :
    .cancel k a ∈ project x hist ↔ ∃ n, x = some n ∧ .cancel n k a ∈ hist := by
  simp only [project, List.mem_filterMap]
  constructor
  · rintro ⟨m, hm, hml⟩
    cases m with
    | call => cases hml
    | run m => cases m <;> cases hml
    | cancel n k a =>
      obtain ⟨rfl, h⟩ := Option.ite_none_right_eq_some.mp hml
      cases h
      exact ⟨n, rfl, hm⟩
  · rintro ⟨n, rfl, hm⟩
    exact ⟨_, hm, by simp [project?]⟩

/-! ### The handle that was made last -/

/-- `aer_task_run` goes on into `run_impl`. -/
def SessionLabel.enters : SessionLabel → Bool
  | .call _ .entered => true
  | _ => false

/-- The cancel handle that a call has made. -/
def SessionLabel.made? : SessionLabel → Option ℕ
  | .call (.makeCancelHandle _ _) (.handle h) => h
  | _ => none

/-- The cancel handle that was made last before `aer_task_run`. -/
def lastMade (hist : List SessionLabel) : Option ℕ :=
  ((hist.takeWhile fun l => !l.enters).filterMap SessionLabel.made?).getLast?

/-- What a call does to the handles that the tasks remember. -/
inductive HandleCall (s : Ffi) : Call → Ret → Ffi → Prop
  | made {p t n s'} (before : s.task? p = some t)
      (after : s'.task? p = some { t with cancel := some n }) :
      HandleCall s (.makeCancelHandle (some p) none) (.handle (some n)) s'
  | entered {p t inner s'} (before : s.task? p = some t) (fresh : t.hasRun = false)
      (there : t.inner = some inner) (after : s'.task? p = some { t with hasRun := true }) :
      HandleCall s (.run (some p)) .entered s'
  | other {c r s'} (made : (SessionLabel.call c r).made? = none) (enters : r ≠ .entered)
      (kept : ∀ q t', s'.task? q = some t' →
        ∃ t, s.task? q = some t ∧ t'.cancel = t.cancel ∧ (t.hasRun = true → t'.hasRun = true)) :
      HandleCall s c r s'

section Calls

variable {strerror : ℤ → String} {s s' : Ffi} {c : Call} {r : Ret} {p : ℕ} {t : AerTask}

theorem kept_setTask (h : s.task? p = some t) {t₁ : AerTask} (hc : t₁.cancel = t.cancel)
    (hr : t.hasRun = true → t₁.hasRun = true) (q : ℕ) (t' : AerTask)
    (h' : (s.setTask p t₁).task? q = some t') :
    ∃ t, s.task? q = some t ∧ t'.cancel = t.cancel ∧ (t.hasRun = true → t'.hasRun = true) := by
  by_cases hq : q = p
  · subst hq
    rw [Ffi.task?_setTask_self h] at h'
    cases h'
    exact ⟨t, h, hc, hr⟩
  · rw [Ffi.task?_setTask_ne hq] at h'
    exact ⟨t', h', rfl, id⟩

theorem made?_of_ret (h : ∀ x, r ≠ .handle x) : (SessionLabel.call c r).made? = none := by
  cases r with
  | handle x => exact absurd rfl (h x)
  | _ => cases c <;> rfl

theorem handleCall_of_call (h : call strerror s c = some (s', r))
    (hnew : ∀ program args argsLen panic, c ≠ .new program args argsLen panic) :
    HandleCall s c r s' ∧ s'.tasks.length = s.tasks.length := by
  -- most calls leave the tasks as they are
  have hsame : (SessionLabel.call c r).made? = none → r ≠ .entered → s'.tasks = s.tasks →
      HandleCall s c r s' ∧ s'.tasks.length = s.tasks.length := by
    intro hmade hr htasks
    refine ⟨.other hmade hr fun q t' ht => ⟨t', ?_, rfl, id⟩, by rw [htasks]⟩
    rwa [Ffi.task?, htasks] at ht
  cases callMove_of_call h with
  | newInvalid | newPanics | newOk => exact absurd rfl (hnew _ _ _ _)
  | makeOk task =>
    refine ⟨.made task ?_, by simp [Ffi.setTask]⟩
    exact Ffi.task?_setTask_self task _
  | runEnters task fresh there =>
    refine ⟨.entered task fresh there ?_, by simp [Ffi.setTask]⟩
    exact Ffi.task?_setTask_self task _
  | setterOk _ task =>
    refine ⟨.other (made?_of_ret (by simp)) (by simp) (kept_setTask task rfl id), ?_⟩
    simp [Ffi.setTask, Ffi.clearLastError]
  | setterPanics _ task =>
    refine ⟨.other (made?_of_ret (by simp)) (by simp) (kept_setTask task rfl id), ?_⟩
    simp [Ffi.setTask, Ffi.setLastError]
  | runGone task =>
    refine ⟨.other rfl (by simp) (kept_setTask task rfl fun _ => rfl), ?_⟩
    simp [Ffi.setTask]
  | @taskFree p _ task =>
    refine ⟨.other rfl (by simp) fun q t' ht => ⟨t', ?_, rfl, id⟩, by simp⟩
    by_cases hq : p = q
    · subst hq
      simp [Ffi.task?, List.getElem?_set_self (Ffi.lt_of_task? task)] at ht
    · simpa [Ffi.task?, List.getElem?_set_ne hq] using ht
  | makeNull | makePanics => exact hsame rfl (by simp) rfl
  | _ => exact hsame (made?_of_ret (by simp)) (by simp) rfl

end Calls

/-- The task, and after it the run, remembers the handle that was made last. -/
structure Remembers (hist : List SessionLabel) (s : Session) : Prop where
  /-- There is one task. -/
  single : s.ffi.tasks.length = 1
  /-- The run has been entered, or not. -/
  enters : s.entered = none ↔ ∀ l ∈ hist, l.enters = false
  /-- Before the run, the task remembers the handle. -/
  task : s.entered = none → ∀ p t, s.ffi.task? p = some t → t.cancel = lastMade hist
  /-- Then the run does. -/
  run : ∀ c x, s.entered = some (c, x) → x = lastMade hist ∧ c.cancel = x.isSome
  /-- There is one run. -/
  once : s.entered ≠ none → ∀ p t, s.ffi.task? p = some t → t.hasRun = true

/-- From the handle the run uses, the session is a run of the system; before the run has
begun, it is one from every handle.  The slots of the other handles are empty. -/
structure Projects (env : Env) (hist : List SessionLabel) (s : Session) : Prop where
  /-- From its own handle, the run is a run of the system. -/
  reaches : ∀ c x, s.entered = none ∨ s.entered = some (c, x) →
    Reaches env (fun _ => c) (project x hist) (s.world x)
  /-- Nobody stores to the slots of the other handles. -/
  unwired : ∀ x, (∀ c, s.entered ≠ some (c, x)) →
    (s.handle x).kill = none ∧ ∀ k, (s.callers x k).target = none

section Runs

variable {env : Env} {strerror : ℤ → String} {s s' : Session} {l : SessionLabel}
  {hist : List SessionLabel} {t : Task}

theorem lastMade_concat (h : ∀ l ∈ hist, l.enters = false) :
    lastMade (hist ++ [l]) = if l.enters then lastMade hist else l.made?.or (lastMade hist) := by
  have hall : ∀ l ∈ hist, (!l.enters) = true := fun l hl => by simp [h l hl]
  unfold lastMade
  rw [List.takeWhile_append_of_pos hall, List.takeWhile_eq_self_iff.mpr hall]
  cases hl : l.enters with
  | true => simp [hl]
  | false => cases hm : l.made? <;> simp [hl, hm, List.filterMap_append]

theorem lastMade_concat_of_entered (h : ¬∀ l ∈ hist, l.enters = false) :
    lastMade (hist ++ [l]) = lastMade hist := by
  have hlen : (hist.takeWhile fun l => !l.enters).length ≠ hist.length := by
    intro hlen
    have htake := (List.takeWhile_prefix fun l => !SessionLabel.enters l).eq_of_length hlen
    exact h fun l hl => by simpa using List.takeWhile_eq_self_iff.mp htake l hl
  unfold lastMade
  rw [List.takeWhile_append, if_neg hlen]

theorem lastMade_concat_of_none (hm : l.made? = none) :
    lastMade (hist ++ [l]) = lastMade hist := by
  by_cases h : ∀ l ∈ hist, l.enters = false
  · simp [lastMade_concat h, hm]
  · exact lastMade_concat_of_entered h

/-- A call of `aer_cancel` on a handle with an empty slot touches nothing else. -/
theorem CancelMove.unwired {w w' : World Unit} {k : CallerId Unit} {a : CancelAct Unit}
    (h : CancelMove env w k a w') (hk : w.handle.kill = none)
    (hc : ∀ k, (w.callers k).target = none) :
    w'.runs = w.runs ∧ w'.handle.kill = none ∧ ∀ k, (w'.callers k).target = none := by
  have hcallers : (w'.callers k).target = none → ∀ k', (w'.callers k').target = none := by
    intro hself k'
    by_cases hkk : k' = k
    · rw [hkk]; exact hself
    · rw [h.callers_ne hkk]; exact hc k'
  have hidle := hc k
  cases h with
  | lockWired _ _ slot => rw [hk] at slot; cases slot
  | probeMore pc | probeAlive pc | probeDead pc | fire pc | killMore pc | killDone pc =>
    rw [pc] at hidle
    cases hidle
  | swapFirst | swapAgain | lockEmpty | unlock =>
    exact ⟨rfl, hk, hcallers (by rw [setCaller_callers_self]; rfl)⟩

/-- Nothing is remembered or forgotten. -/
theorem Remembers.frame (hr : Remembers hist s) (he : s'.entered = s.entered)
    (hlen : s'.ffi.tasks.length = s.ffi.tasks.length) (hl : l.enters = false)
    (hm : l.made? = none)
    (kept : ∀ q t', s'.ffi.task? q = some t' → ∃ t, s.ffi.task? q = some t ∧
      t'.cancel = t.cancel ∧ (t.hasRun = true → t'.hasRun = true)) :
    Remembers (hist ++ [l]) s' where
  single := hlen.trans hr.single
  enters := by
    rw [he, hr.enters]
    simp [or_imp, forall_and, hl]
  task := fun hnone p t' ht' => by
    obtain ⟨t, ht, hc, -⟩ := kept p t' ht'
    rw [lastMade_concat_of_none hm, hc]
    exact hr.task (he ▸ hnone) p t ht
  run := fun c x hx => by
    rw [lastMade_concat_of_none hm]
    exact hr.run c x (he ▸ hx)
  once := fun hne p t' ht' => by
    obtain ⟨t, ht, -, hran⟩ := kept p t' ht'
    exact hran (hr.once (he ▸ hne) p t ht)

/-- There is one task, so two pointers to tasks are the same. -/
theorem Remembers.task_eq (hr : Remembers hist s) {p q : ℕ} {t t' : AerTask}
    (hlen : s'.ffi.tasks.length = s.ffi.tasks.length) (hp : s.ffi.task? p = some t)
    (hq : s'.ffi.task? q = some t') : q = p := by
  have hp := Ffi.lt_of_task? hp
  have hq := Ffi.lt_of_task? hq
  have := hr.single
  omega

theorem remembers_call {c : Call} {r : Ret} {ffi : Ffi} (hr : Remembers hist s)
    (hlen : ffi.tasks.length = s.ffi.tasks.length) (h : HandleCall s.ffi c r ffi) :
    Remembers (hist ++ [.call c r])
      { s with ffi := ffi, entered := if r = .entered then s.reads c else s.entered } := by
  have hone : ∀ {p q t t'}, s.ffi.task? p = some t → ffi.task? q = some t' → q = p :=
    fun hp hq => hr.task_eq
      (show ({ s with ffi := ffi } : Session).ffi.tasks.length = s.ffi.tasks.length from hlen) hp hq
  cases h with
  | other made enters kept =>
    refine hr.frame (by simp [enters]) hlen ?_ made kept
    cases r <;> first | rfl | exact absurd rfl enters
  | @made p t n _ before after =>
    refine ⟨hlen.trans hr.single, ?_, fun hnone q t' ht' => ?_, fun c x hx => ?_,
      fun hne q t' ht' => ?_⟩
    · simp [hr.enters, or_imp, forall_and, SessionLabel.enters]
    · obtain rfl := hone before ht'
      rw [after] at ht'
      cases ht'
      rw [lastMade_concat (hr.enters.mp hnone)]
      rfl
    · have hin : ¬∀ l ∈ hist, l.enters = false := fun hnot => by
        have := hr.enters.mpr hnot
        rw [show s.entered = some (c, x) from hx] at this
        cases this
      rw [lastMade_concat_of_entered hin]
      exact hr.run c x hx
    · obtain rfl := hone before ht'
      rw [after] at ht'
      cases ht'
      exact hr.once hne q t before
  | @entered p t inner _ before fresh there after =>
    have hnone : s.entered = none := by
      by_contra hne
      rw [hr.once hne p t before] at fresh
      cases fresh
    have hreads : s.reads (.run (some p)) =
        some (⟨inner.timeout, inner.captureOutput, t.cancel.isSome⟩, t.cancel) := by
      simp [Session.reads, before, AerTask.reads, there]
    refine ⟨hlen.trans hr.single, ?_, fun h => ?_, fun c x hx => ?_, fun _ q t' ht' => ?_⟩
    · refine iff_of_false (by simp [hreads]) fun h => ?_
      have := h (.call (.run (some p)) .entered) (by simp)
      cases this
    · simp [hreads] at h
    · simp only [if_true, hreads] at hx
      cases hx
      rw [lastMade_concat_of_none rfl]
      exact ⟨hr.task hnone p t before, rfl⟩
    · obtain rfl := hone before ht'
      rw [after] at ht'
      cases ht'
      rfl

theorem Session.not_new_of_admits {c : Call} (h : s.admits c = true) (program : Option CStr)
    (args : Option (ℕ → Option CStr)) (argsLen : ℕ) (panic : Option PanicPayload) :
    c ≠ .new program args argsLen panic := by
  rintro rfl
  cases h

theorem remembers_move (h : SessionMove env strerror s l s') (hr : Remembers hist s) :
    Remembers (hist ++ [l]) s' := by
  cases h with
  | call admits h =>
    obtain ⟨hcall, hlen⟩ := handleCall_of_call h (Session.not_new_of_admits admits)
    exact remembers_call hr hlen hcall
  | run | cancel => exact hr.frame rfl rfl rfl rfl fun q t' ht' => ⟨t', ht', rfl, id⟩

theorem remembers_of_session
    (h : Lts.exec (Session.step env strerror) (Session.init env t) hist = some s) :
    Remembers hist s := by
  refine Lts.exec_invariant (P := Remembers) ?_ ?_ h
  · refine ⟨rfl, by simp [Session.init], fun _ p t' ht => ?_, fun c x h => ?_, fun h => ?_⟩
    · cases p with
      | zero => cases ht; rfl
      | succ p => cases ht
    · cases h
    · exact absurd rfl h
  · intro hist s l s' _ hr hstep
    exact remembers_move (sessionMove_of_step hstep) hr

theorem projects_move (h : SessionMove env strerror s l s') (hr : Remembers hist s)
    (hp : Projects env hist s) : Projects env (hist ++ [l]) s' := by
  cases h with
  | @call c r ffi admits h =>
    have hentered : r = .entered → s.entered = none := by
      rintro rfl
      obtain ⟨hcall, -⟩ := handleCall_of_call h (Session.not_new_of_admits admits)
      cases hcall with
      | entered before fresh =>
        by_contra hne
        rw [hr.once hne _ _ before] at fresh
        cases fresh
      | other _ enters => exact absurd rfl enters
    have hproject : ∀ x, project x (hist ++ [.call c r]) = project x hist := fun x => by
      rw [project_append]
      exact List.append_nil _
    by_cases hre : r = .entered
    · have hnone := hentered hre
      refine ⟨fun c' x _ => ?_, fun x _ => ?_⟩
      · rw [hproject]
        exact hp.reaches c' x (.inl hnone)
      · exact hp.unwired x (by simp [hnone])
    · refine ⟨fun c' x hx => ?_, fun x hx => ?_⟩
      · rw [hproject]
        simp only [hre, if_false] at hx
        exact hp.reaches c' x hx
      · simp only [hre, if_false] at hx
        exact hp.unwired x hx
  | @run l c x w entered mine h =>
    refine ⟨fun c' x' hx => ?_, fun x' hx => ?_⟩
    · obtain ⟨rfl, rfl⟩ : c = c' ∧ x = x' := by
        simpa [Session.put, entered] using hx
      rw [Session.world_put_self, project_append]
      have hl : project x [.run l] = [l] := by simp [project, project?_run x mine]
      rw [hl]
      exact Lts.exec_concat_eq_some.mpr ⟨_, hp.reaches c x (.inr entered), h⟩
    · have hne : x' ≠ x := fun hx' => hx c (by simpa [Session.put, hx'] using entered)
      have hother := hp.unwired x' hx
      simpa [Session.put, Function.update_of_ne hne] using hother
  | @cancel n k a w h =>
    have m := cancelMove_of_step h
    refine ⟨fun c x hx => ?_, fun x hx => ?_⟩
    · by_cases hn : x = some n
      · subst hn
        rw [Session.world_put_self, project_append]
        have hl : project (some n) [.cancel n k a] = [.cancel k a] := by simp [project, project?]
        rw [hl]
        exact Lts.exec_concat_eq_some.mpr ⟨_, hp.reaches c _ hx, h⟩
      · -- the slot of another handle is empty, so nothing happens to the run
        have hother := hp.unwired (some n) fun c' hc' => by
          rcases hx with hx | hx
          · simp [Session.put, hc'] at hx
          · simp [Session.put, hc', Ne.symm hn] at hx
        obtain ⟨hruns, -, -⟩ := m.unwired hother.1 hother.2
        rw [Session.world_put_ne _ _ hn, hruns, project_append]
        have hl : project x [.cancel n k a] = [] := by
          simp [project, project?, Ne.symm hn]
        rw [hl, List.append_nil]
        exact hp.reaches c x hx
    · have hother := hp.unwired x hx
      by_cases hn : x = some n
      · subst hn
        simpa [Session.put] using (m.unwired hother.1 hother.2).2
      · simpa [Session.put, Function.update_of_ne hn] using hother

theorem projects_of_session
    (h : Lts.exec (Session.step env strerror) (Session.init env t) hist = some s) :
    Projects env hist s := by
  refine Lts.exec_invariant (P := Projects env) ?_ ?_ h
  · exact ⟨fun c x _ => rfl, fun x _ => ⟨rfl, fun _ => rfl⟩⟩
  · intro hist s l s' hs hp hstep
    exact projects_move (sessionMove_of_step hstep) (remembers_of_session hs) hp

/-- The run is entered once. -/
theorem entered_mono (h : Lts.exec (Session.step env strerror) (Session.init env t) hist = some s)
    {rest : List SessionLabel} (hrest : Lts.exec (Session.step env strerror) s rest = some s')
    (hne : s.entered ≠ none) : s'.entered = s.entered := by
  refine Lts.exec_invariant (P := fun _ s' => s'.entered = s.entered) rfl ?_ hrest
  intro rest s₁ l s₂ hs₁ ih hstep
  have hr := remembers_of_session (Lts.exec_append_eq_some.mpr ⟨s, h, hs₁⟩)
  cases sessionMove_of_step hstep with
  | @call c r ffi admits h =>
    obtain ⟨hcall, -⟩ := handleCall_of_call h (Session.not_new_of_admits admits)
    cases hcall with
    | made => exact ih
    | other _ enters => simpa [enters] using ih
    | entered before fresh =>
      rw [hr.once (ih ▸ hne) _ _ before] at fresh
      cases fresh
  | run | cancel => exact ih

end Runs

/-! ### Which handles work -/

/-- The slot of the handle that the run uses holds its kill handle. -/
def Session.wired (s : Session) : Bool :=
  match s.entered with
  | some (_, x) => decide ((s.handle x).kill = some ())
  | none => false

/-- `tree_alive` answers a call of `aer_cancel` that the tree is dead. -/
def Session.findsDead (env : Env) (s : Session) : SessionLabel → Bool
  | .cancel n k (.probe _ x) =>
      match s.callers (some n) k with
      | .probe _ p => decide (treeAliveStep env s.run.tree p x = some (.inr false))
      | _ => false
  | _ => false

/-- The handle on which `aer_cancel` is called. -/
def SessionLabel.cancels? : SessionLabel → Option ℕ
  | .cancel n _ (.swap _) => some n
  | _ => none

/-- A step of a `kill_escalating` that `aer_cancel` has triggered. -/
def SessionLabel.kills : SessionLabel → Bool
  | .run l => l.cancelKills ()
  | .cancel _ _ (.kill _ _) => true
  | _ => false

/-- A thread of the run cannot be started, `child.wait()` fails, or the callback panics. -/
def SessionLabel.spoils : SessionLabel → Bool
  | .run l => l.fails () || decide (l = .main () .exitedPanics)
  | _ => false

/-- The tree is killed and nothing of its group is left, and the run is reported as cancelled
by the code of `aer_task_run` and by the reason of `Exited`. -/
structure CancelWorks (env : Env) (hist : List SessionLabel) (s : Session) (code : AerErrorCode) :
    Prop where
  /-- The tree is killed. -/
  killed : ∃ l ∈ hist, l.kills = true
  /-- Nothing of its group is left. -/
  quiet : Quiet env s.run.tree
  /-- The code of `aer_task_run`. -/
  code : code = .cancelled
  /-- The last event. -/
  exited : .exited (-1) .cancelRequested ∈ s.run.events

section Works

variable {env : Env} {strerror : ℤ → String} {s s' : Session} {hist : List SessionLabel}
  {t : Task} {n : ℕ} {k : CallerId Unit}

theorem kills_of_project {x : Option ℕ} (h : ∃ l ∈ project x hist, l.cancelKills () = true) :
    ∃ l ∈ hist, l.kills = true := by
  obtain ⟨l, hl, hk⟩ := h
  cases l with
  | main i a => exact ⟨_, (mem_project_run (by simp)).mp hl, hk⟩
  | cancel k a =>
    obtain ⟨n, -, hm⟩ := mem_project_cancel.mp hl
    cases a with
    | kill => exact ⟨_, hm, rfl⟩
    | _ => cases hk
  | _ => cases hk

theorem callers_of_step {c : RunConfig} {w w' : World Unit} {l : Label Unit}
    (mine : ∀ k a, l ≠ .cancel k a) (h : step env (fun _ => c) w l = some w') :
    w'.callers = w.callers := by
  cases handleMove_of_step h with
  | main => rfl
  | cancel => exact absurd rfl (mine _ _)
  | inner _ _ hc => exact hc

/-- A caller in `tree_alive` goes on with it, is told that the tree is alive, or finds it
dead. -/
theorem probe_move {w : World Unit} {a : CancelAct Unit} {p : ProbePc}
    (hk : s.callers (some n) k = .probe () p) (h : CancelMove env (s.world (some n)) k a w) :
    (∃ p, w.callers k = .probe () p) ∨ Label.probesAlive () (.cancel k a) = true ∨
      s.findsDead env (.cancel n k a) = true := by
  cases h with
  | probeMore => exact .inl ⟨_, setCaller_callers_self _ _ _⟩
  | @probeAlive _ _ x pc h =>
    have hx : x ≠ .absent := by simpa using treeAliveStep_eq_answer h
    exact .inr (.inl (by simp [Label.probesAlive, hx]))
  | probeDead pc h =>
    refine .inr (.inr ?_)
    change s.callers (some n) k = _ at pc
    simp only [Session.findsDead, pc]
    exact decide_eq_true h
  | _ pc =>
    change s.callers (some n) k = _ at pc
    rw [hk] at pc
    cases pc

/-- A call that has found the run in the slot fires, unless it is told that the tree is dead. -/
theorem alive_of_probing {p : ProbePc} {rest : List SessionLabel}
    (hk : s.callers (some n) k = .probe () p)
    (halive : Lts.Along (Session.step env strerror) (fun s l => s.findsDead env l = false) s rest)
    (h : Lts.exec (Session.step env strerror) s rest = some s') :
    (∃ p, s'.callers (some n) k = .probe () p) ∨
      (project (some n) rest).any (Label.probesAlive ()) = true := by
  refine Lts.exec_invariant_along (P := fun rest s' =>
    (∃ p, s'.callers (some n) k = .probe () p) ∨
      (project (some n) rest).any (Label.probesAlive ()) = true) (.inl ⟨p, hk⟩) ?_ h halive
  rintro rest s₁ l s₂ - (⟨p, hp⟩ | hp) hl hstep
  · cases sessionMove_of_step hstep with
    | call => exact .inl ⟨p, hp⟩
    | @run l c x w entered mine h =>
      refine .inl ⟨p, ?_⟩
      by_cases hx : some n = x
      · subst hx
        rw [← hp]
        simp only [Session.put, Function.update_self]
        exact congrFun (callers_of_step mine h) k
      · simpa [Session.put, Function.update_of_ne hx] using hp
    | @cancel m k' a w h =>
      by_cases hm : some n = some m
      · cases hm
        have hmove := cancelMove_of_step h
        by_cases hkk : k = k'
        · subst hkk
          rcases probe_move hp hmove with hp' | halive | hdead
          · exact .inl (by simpa [Session.put] using hp')
          · exact .inr (by simp [project, project?, halive])
          · rw [hl] at hdead
            cases hdead
        · refine .inl ⟨p, ?_⟩
          simp only [Session.put, Function.update_self]
          exact (hmove.callers_ne hkk).trans hp
      · exact .inl ⟨p, by simpa [Session.put, Function.update_of_ne hm] using hp⟩
  · exact .inr (by rw [project_append, List.any_append, hp, Bool.true_or])

/-- The code of `aer_task_run` tells a cancellation. -/
theorem code_of_runReturns {ffi ffi' : Ffi} {o : RunOutcome} {code : AerErrorCode}
    (h : call strerror ffi (.runReturns o) = some (ffi', .code code)) :
    code = .cancelled ↔ o = .returned (.error .cancelled) := by
  cases callMove_of_call h with
  | returnsOk => simp
  | returnsPanic => simp
  | @returnsError _ _ e => cases e <;> simp [AerError.code]
  | setterNull args | setterLate args | setterInvalid args | setterGone args | setterOk args
  | setterPanics args => cases args

/-- A call of `aer_cancel` that looks into a wired slot finds the run there. -/
theorem probing_of_lock {c : RunConfig} (hent : s.entered = some (c, some n))
    (hwired : s.wired = true) (h : s.step env strerror (.cancel n k .lock) = some s') :
    ∃ p, s'.callers (some n) k = .probe () p := by
  have hslot : (s.handle (some n)).kill = some () := by
    simpa [Session.wired, hent] using hwired
  cases sessionMove_of_step h with
  | cancel hlock =>
    cases cancelMove_of_step hlock with
    | lockEmpty _ _ slot =>
      change (s.handle (some n)).kill = none at slot
      rw [hslot] at slot
      cases slot
    | lockWired => exact ⟨ProbePc.entry env.platform, by simp [Session.put]⟩

/-- A run on a handle of its own that has been cancelled reports it, if nothing fails. -/
theorem cancelled_of_alive {c : RunConfig} {tr : List (Label Unit)} {w : World Unit}
    (h : Reaches env (fun _ => c) tr w) (hcancel : c.cancel = true) (htimeout : c.timeout = none)
    (hwire : .main () .wire ∈ tr) (hfails : ∀ l ∈ tr, l.fails () = false)
    (hcalm : .main () .exitedPanics ∉ tr) {o : Outcome} (hfin : (w.runs ()).main = .finished o)
    (halive : .main () .clear ∈ tr → tr.any (Label.probesAlive ()) = true) :
    o = .ret (.error .cancelled) ∧ (∃ l ∈ tr, l.cancelKills () = true) ∧
      Quiet env (w.runs ()).tree ∧ .exited (-1) .cancelRequested ∈ (w.runs ()).events := by
  have hs : SoleRun (fun _ : Unit => c) () := fun j hj => absurd rfl hj
  have hclear : .main () .clear ∈ tr := by
    by_contra hclear
    obtain ⟨l, hl, hf⟩ := List.any_eq_true.mp
      ((faults_of_reaches h ()).left hcancel (by rw [hfin]; rfl) hwire hclear)
    rw [hfails l hl] at hf
    cases hf
  obtain ⟨hnotFiring, hnotKilling⟩ := quiet_after_clear h hs hclear ()
  have hfires := ((triggered_of_reaches h ()).alive.mp (halive hclear)).resolve_left hnotFiring
  have hkills := ((triggered_of_reaches h ()).fired.mp hfires).resolve_left hnotKilling
  obtain ⟨res, rfl, hverdict⟩ := isVerdict_of_clear h hclear hcalm (by rw [hfin]; rfl)
  have hres := result_of_killFired h hcancel hs htimeout hfin hverdict
  rw [(hs.killFired_iff h).mpr hfires] at hres
  subst hres
  obtain ⟨kind, hk⟩ := hasShape_of_returned h hfin
  obtain rfl := hk.eq_cancelled
  obtain ⟨-, pid, chunks, -, hevents, -⟩ := hk
  refine ⟨rfl, List.any_eq_true.mp hkills, quiet_of_clear h hclear, ?_⟩
  rw [hevents]
  simp

/-- A run that reports a cancellation has been cancelled, and nothing has failed. -/
theorem swap_of_cancelled {c : RunConfig} {tr : List (Label Unit)} {w : World Unit}
    (h : Reaches env (fun _ => c) tr w)
    (hfin : (w.runs ()).main = .finished (.ret (.error .cancelled))) :
    (∃ k, .cancel k (.swap false) ∈ tr) ∧ (∀ l ∈ tr, l.fails () = false) ∧
      .main () .exitedPanics ∉ tr := by
  have hs : SoleRun (fun _ : Unit => c) () := fun j hj => absurd rfl hj
  obtain ⟨kind, hk⟩ := hasShape_of_returned h hfin
  obtain rfl := hk.eq_cancelled
  have hclear : .main () .clear ∈ tr :=
    (progress_of_reaches h ()).judging hk.1 (by rw [hfin]; rfl)
  refine ⟨?_, fun l hl => ?_, fun hp => ?_⟩
  · -- the flag that the verdict was made of is stored after a probe, and that after a swap
    have hloaded := loaded_of_reaches h ()
    rw [hfin] at hloaded
    obtain ⟨b, cn, hres, -, hload⟩ := hloaded rfl
    obtain rfl : cn = true := by
      cases b <;> cases cn <;> first | rfl | cases hres
    have hprobed := hs.probed_of_killFired h (loadKillFired_eq h hk.1 hs hload).symm
    obtain ⟨l, hl, hp⟩ := List.any_eq_true.mp hprobed
    obtain ⟨before, after, w₁, w₂, rfl, hbefore, hstep, -⟩ := Lts.exec_of_mem h hl
    obtain ⟨k, hk⟩ := (cancelled_iff hbefore).mp (cancelled_of_cancelProbes hbefore hstep hp)
    exact ⟨k, List.mem_append_left _ hk⟩
  · by_contra hf
    rw [Bool.not_eq_false] at hf
    exact ((faults_of_reaches h ()).between (List.any_eq_true.mpr ⟨l, hl, hf⟩)).1 hclear
  · have := unwound_of_exitedPanics h hp
    rw [hfin] at this
    cases this

theorem spoils_eq_false_iff {x : Option ℕ} :
    (∀ l ∈ hist, l.spoils = false) ↔
      (∀ l ∈ project x hist, l.fails () = false) ∧ .main () .exitedPanics ∉ project x hist := by
  constructor
  · intro h
    refine ⟨fun l hl => ?_, fun hl => ?_⟩
    · cases l with
      | cancel => rfl
      | _ =>
        have := h _ ((mem_project_run (by simp)).mp hl)
        simp only [SessionLabel.spoils, Bool.or_eq_false_iff] at this
        exact this.1
    · have := h _ ((mem_project_run (by simp)).mp hl)
      simp [SessionLabel.spoils] at this
  · rintro ⟨hfails, hcalm⟩ l hl
    cases l with
    | call | cancel => rfl
    | run l =>
      cases l with
      | cancel => rfl
      | main i a =>
        have hl := (mem_project_run (x := x) (by simp)).mpr hl
        simp only [SessionLabel.spoils, hfails _ hl, Bool.false_or, decide_eq_false_iff_not]
        rintro ha
        exact hcalm (ha ▸ hl)
      | _ =>
        have hl := (mem_project_run (x := x) (by simp)).mpr hl
        simp [SessionLabel.spoils, hfails _ hl]

/-- `aer_task_run` returns when `run_impl` has been left. -/
theorem finished_of_admits {o : RunOutcome} (h : s.admits (.runReturns o) = true) :
    ∃ o', s.run.main = .finished o' ∧ o'.seenAs o = true := by
  simp only [Session.admits] at h
  split at h
  · next o' hfin => exact ⟨o', hfin, h⟩
  · cases h

/-- What `aer_task_run` returns is what `run_impl` has left with. -/
theorem finished_of_return {o : RunOutcome} {code : AerErrorCode}
    (h : s.step env strerror (.call (.runReturns o) (.code code)) = some s') :
    s'.run = s.run ∧ s'.entered = s.entered ∧ ∃ o', s.run.main = .finished o' ∧
      (code = .cancelled ↔ o' = .ret (.error .cancelled)) := by
  cases sessionMove_of_step h with
  | call admits hcall =>
    obtain ⟨o', hfin, hseen⟩ := finished_of_admits admits
    refine ⟨rfl, rfl, o', hfin, ?_⟩
    rw [code_of_runReturns hcall]
    cases o' with
    | ret res =>
      cases o with
      | returned res' =>
        obtain rfl : res = res' := of_decide_eq_true hseen
        simp
      | panicked => cases hseen
    | unwound =>
      cases o with
      | returned => cases hseen
      | panicked => simp

/-- **Which cancel handles work.**  On one task, let a call of `aer_cancel` on handle `n` look
into the slot while the kill slot of the run is wired, let there be no call on another handle,
let `tree_alive` not answer that the tree is dead, and let no timeout be configured.  When
`aer_task_run` has returned, the tree has been killed and the run is reported as cancelled
exactly if `n` was made last before the run, every thread of the run could be started,
`child.wait()` did not fail and the callback did not panic. -/
theorem cancel_works_iff_made_last {before after : List SessionLabel} {s₁ : Session}
    {o : RunOutcome} {code : AerErrorCode}
    (hbefore : Lts.exec (Session.step env strerror) (Session.init env t) before = some s₁)
    (hwired : s₁.wired = true) (hist_eq : hist = before ++ .cancel n k .lock :: after)
    (h : Lts.exec (Session.step env strerror) (Session.init env t)
      (hist ++ [.call (.runReturns o) (.code code)]) = some s')
    (honly : ∀ l ∈ hist, l.cancels? = none ∨ l.cancels? = some n)
    (halive : Lts.Along (Session.step env strerror) (fun s l => s.findsDead env l = false)
      (Session.init env t) hist)
    (htimeout : ∀ c x, s'.entered = some (c, x) → c.timeout = none) :
    CancelWorks env hist s' code ↔ lastMade hist = some n ∧ ∀ l ∈ hist, l.spoils = false := by
  obtain ⟨s, hs, hreturn⟩ := Lts.exec_concat_eq_some.mp h
  obtain ⟨hrun, hentered, o', hfin, hcode⟩ := finished_of_return hreturn
  subst hist_eq
  have hrest : Lts.exec (Session.step env strerror) s₁ (.cancel n k .lock :: after) = some s := by
    obtain ⟨m, hm, hrest⟩ := Lts.exec_append_eq_some.mp hs
    rw [hbefore] at hm
    cases hm
    exact hrest
  obtain ⟨⟨c, x⟩, hent₁, hslot⟩ : ∃ cx, s₁.entered = some cx ∧ (s₁.handle cx.2).kill = some () := by
    unfold Session.wired at hwired
    split at hwired
    · next c x hent => exact ⟨_, hent, of_decide_eq_true hwired⟩
    · cases hwired
  have hent : s.entered = some (c, x) :=
    (entered_mono hbefore hrest (by simp [hent₁])).trans hent₁
  obtain ⟨hx, hcancel⟩ := (remembers_of_session hs).run c x hent
  -- from the handle it uses, the run is a run of the system, and it has stored to the slot
  have hreach := (projects_of_session hs).reaches c x (.inr hent)
  have hreach₁ := (projects_of_session hbefore).reaches c x (.inr hent₁)
  have hwire : .main () .wire ∈ project x (before ++ .cancel n k .lock :: after) := by
    rw [project_append]
    exact List.mem_append_left _ (wired_of_slot hreach₁ hslot).1
  rw [spoils_eq_false_iff (x := x), ← hx]
  constructor
  · intro hworks
    have hcancelled := hcode.mp hworks.code
    obtain ⟨⟨k', hswap⟩, hfails, hcalm⟩ :=
      swap_of_cancelled hreach (by rw [← hcancelled]; exact hfin)
    refine ⟨?_, hfails, hcalm⟩
    obtain ⟨m, rfl, hm⟩ := mem_project_cancel.mp hswap
    simpa [SessionLabel.cancels?] using honly _ hm
  · rintro ⟨rfl, hfails, hcalm⟩
    obtain ⟨s₂, hlock, hafter⟩ := Option.bind_eq_some_iff.mp hrest
    obtain ⟨p, hp⟩ := probing_of_lock hent₁ hwired hlock
    have halive₂ := ((Lts.along_append hbefore).mp halive).2.2 s₂ hlock
    have hprobed : .main () .clear ∈ project (some n) (before ++ .cancel n k .lock :: after) →
        (project (some n) (before ++ .cancel n k .lock :: after)).any
          (Label.probesAlive ()) = true := by
      intro hclear
      rcases alive_of_probing hp halive₂ hafter with ⟨q, hq⟩ | hany
      · -- once the slot is cleared nobody is in `tree_alive`
        have hkill := (guarded_of_reaches hreach).slot k () (by
          change (s.callers (some n) k).target = some ()
          rw [hq]
          rfl)
        exact absurd hclear (wired_of_slot hreach hkill).2
      · rw [List.append_cons, project_append, List.any_append, hany, Bool.or_true]
    obtain ⟨rfl, hkills, hquiet, hevents⟩ := cancelled_of_alive hreach hcancel
      (htimeout c _ (hentered.trans hent)) hwire hfails hcalm hfin hprobed
    refine ⟨kills_of_project hkills, ?_, hcode.mpr rfl, ?_⟩
    · rw [hrun]
      exact hquiet
    · rw [hrun]
      exact hevents

end Works

/-- Two cancel handles are made for the task, and it is run. -/
def twoHandles : List SessionLabel :=
  [.call (.makeCancelHandle (some 0) none) (.handle (some 0)),
    .call (.makeCancelHandle (some 0) none) (.handle (some 1)), .call (.run (some 0)) .entered]

/-- The steps of a run, with its calls of `cancel()` on handle `n`. -/
def onHandle (n : ℕ) : Label Unit → SessionLabel
  | .cancel k a => .cancel n k a
  | l => .run l

/-- The second handle is used. -/
def secondHandle : List SessionLabel := twoHandles ++ cancelledRun.map (onHandle 1)

/-- It works. -/
theorem secondHandle_works :
    ∃ s, Lts.exec (Session.step Env.posix fun _ => "") (Session.init Env.posix (Task.new "sh" []))
        (secondHandle ++ [.call (.runReturns (.returned (.error .cancelled))) (.code .cancelled)]) =
          some s ∧
      CancelWorks Env.posix secondHandle s .cancelled := by
  obtain ⟨s₁, hbefore, hwired⟩ : ∃ s₁, Lts.exec (Session.step Env.posix fun _ => "")
      (Session.init Env.posix (Task.new "sh" [])) (secondHandle.take 13) = some s₁ ∧
      s₁.wired = true := Lts.exists_exec_of_any (by decide +kernel)
  obtain ⟨s, hs, hent⟩ : ∃ s, Lts.exec (Session.step Env.posix fun _ => "")
      (Session.init Env.posix (Task.new "sh" []))
      (secondHandle ++ [.call (.runReturns (.returned (.error .cancelled))) (.code .cancelled)]) =
        some s ∧ s.entered = some (⟨none, false, true⟩, some 1) :=
    Lts.exists_exec_of_any (by decide +kernel)
  have hhist : secondHandle =
      secondHandle.take 13 ++ .cancel 1 (.thread 0) .lock :: secondHandle.drop 14 := rfl
  refine ⟨s, hs, (cancel_works_iff_made_last hbefore hwired hhist hs (by decide)
    (by decide +kernel) fun c x hx => ?_).mpr ⟨rfl, by decide⟩⟩
  rw [hent] at hx
  cases hx
  rfl

/-- The root works, and `aer_cancel` has been called on the first handle. -/
def firstHandle : List SessionLabel :=
  twoHandles ++ (beginRun () 7).map .run ++
  [.run (.main () .callWait), .run (.wait () (.startOut true)), .run (.wait () (.startErr true)),
    .cancel 0 (.thread 0) (.swap false)]

/-- The call finds the slot of its own handle empty, and the root goes on to its end. -/
def firstHandleRest : List SessionLabel :=
  .cancel 0 (.thread 0) .lock :: .cancel 0 (.thread 0) .unlock ::
    (((waitNatural () 3).drop 3 ++ endRun () false false).map .run)

/-- The slot of the run is wired and a probe would answer "alive" when the call on the first
handle looks into its slot, and it is the only call; yet nothing is killed, and the run is
reported as a natural end. -/
theorem firstHandle_is_forgotten :
    (∃ s₁, Lts.exec (Session.step Env.posix fun _ => "")
        (Session.init Env.posix (Task.new "sh" [])) firstHandle = some s₁ ∧ s₁.wired = true ∧
      treeAliveStep Env.posix s₁.run.tree .group .present = some (.inr true)) ∧
    (∀ l ∈ firstHandle ++ firstHandleRest, l.cancels? = none ∨ l.cancels? = some 0) ∧
    Lts.Along (Session.step Env.posix fun _ => "") (fun s l => s.findsDead Env.posix l = false)
      (Session.init Env.posix (Task.new "sh" [])) (firstHandle ++ firstHandleRest) ∧
    (∀ l ∈ firstHandle ++ firstHandleRest, l.spoils = false ∧ l.kills = false) ∧
    ∃ s, Lts.exec (Session.step Env.posix fun _ => "")
        (Session.init Env.posix (Task.new "sh" []))
        (firstHandle ++ firstHandleRest ++ [.call (.runReturns (.returned (.ok ()))) (.code .ok)]) =
          some s ∧
      s.entered = some (⟨none, false, true⟩, some 1) ∧
      s.run.events = [.started 7, .exited 3 .naturalExit] ∧
      ¬CancelWorks Env.posix (firstHandle ++ firstHandleRest) s .ok := by
  refine ⟨Lts.exists_exec_of_any (by decide +kernel), by decide, by decide +kernel, by decide, ?_⟩
  obtain ⟨s, hs, hent, hevents⟩ : ∃ s, Lts.exec (Session.step Env.posix fun _ => "")
      (Session.init Env.posix (Task.new "sh" []))
      (firstHandle ++ firstHandleRest ++ [.call (.runReturns (.returned (.ok ()))) (.code .ok)]) =
        some s ∧ s.entered = some (⟨none, false, true⟩, some 1) ∧
      s.run.events = [.started 7, .exited 3 .naturalExit] :=
    Lts.exists_exec_of_any (by decide +kernel)
  exact ⟨s, hs, hent, hevents, fun hworks => by cases hworks.code⟩

end AerCore
