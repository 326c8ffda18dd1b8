import AerCore.Ffi

/-!
# The handle and the builder

A task pointer stands for a chain of consuming builders.  Each setter takes the task out,
hands it to one builder and puts the result back, and each of its early returns leaves it
where it is; `aer_task_run` closes the chain and spawns what it has made.

## Main definitions

* `chain p hist` — the builders of the setter calls on `p` that have returned `Ok`.
* `ran p hist` — `aer_task_run` has been called on `p`.
* `TaskMove` — what a call does to one task.
* `HandleRefines` — the task behind the pointer is the one the chain makes.

## Main results

* `taskMove_of_call` — every call does one of these things.
* `chained_of_exec` — the invariant of whole sequences of calls.
* `handle_refines_builder` — **the C handle refines the Rust builder**.
* `lateHandle_is_given_out` — a cancel handle is made for a task that has been run, too.
-/

namespace AerCore

/-! ### The chain behind a pointer -/

/-- The builder of a setter call on `p` that has returned `Ok`. -/
def okBuilder? (p : ℕ) (l : Call × Ret) : Option Builder :=
  match l.1.setter?, l.2 with
  | some (some q, .ok b, _), .code .ok => if q = p then some b else none
  | _, _ => none

/-- The builders of the setter calls on `p` that have returned `Ok`, in their order. -/
def chain (p : ℕ) (hist : List (Call × Ret)) : List Builder := hist.filterMap (okBuilder? p)

/-- The call is `aer_task_run` on `p`. -/
def Call.runs (p : ℕ) : Call → Bool
  | .run task => decide (task = some p)
  | _ => false

/-- `aer_task_run` has been called on `p`. -/
def ran (p : ℕ) (hist : List (Call × Ret)) : Bool := hist.any fun l => l.1.runs p

/-- What has been spawned for `p`. -/
def Ffi.spawnsOf (s : Ffi) (p : ℕ) : List SpawnRequest :=
  (s.spawns.filter fun x => decide (x.1 = p)).map Prod.snd

/-- A panic inside the builder that the setter calls. -/
def Call.builderPanics (c : Call) : Bool :=
  match c.setter? with
  | some (_, _, panic) => panic.isSome
  | none => false

@[simp] theorem chain_concat (p : ℕ) (hist : List (Call × Ret)) (l : Call × Ret) :
    chain p (hist ++ [l]) = chain p hist ++ (okBuilder? p l).toList := by
  cases h : okBuilder? p l <;> simp [chain, h]

@[simp] theorem ran_concat (p : ℕ) (hist : List (Call × Ret)) (l : Call × Ret) :
    ran p (hist ++ [l]) = (ran p hist || l.1.runs p) := by
  simp [ran]

/-! ### What a call does to one task -/

section Tasks

variable {strerror : ℤ → String} {s s' : Ffi} {c : Call} {r : Ret} {p q : ℕ} {t t' : AerTask}

theorem Ffi.lt_of_task? (h : s.task? p = some t) : p < s.tasks.length := by
  by_contra hp
  rw [Ffi.task?, List.getElem?_eq_none (by omega)] at h
  cases h

theorem Ffi.task?_setTask_self (h : s.task? p = some t) (t' : AerTask) :
    (s.setTask p t').task? p = some t' := by
  simp [Ffi.task?, Ffi.setTask, List.getElem?_set_self (Ffi.lt_of_task? h)]

theorem Ffi.task?_setTask_ne (h : q ≠ p) (t' : AerTask) :
    (s.setTask p t').task? q = s.task? q := by
  simp [Ffi.task?, Ffi.setTask, List.getElem?_set_ne h.symm]

@[simp] theorem Ffi.task?_clearLastError : s.clearLastError.task? p = s.task? p := rfl

@[simp] theorem Ffi.task?_setLastError (msg : String) : (s.setLastError msg).task? p = s.task? p :=
  rfl

/-- What a call, with its answer, does to the task behind `p`. -/
inductive TaskMove (p : ℕ) (s : Ffi) : Call × Ret → Ffi → Prop
  /-- `p` is handed out. -/
  | created {program args argsLen t s'} (fresh : s.tasks.length = p)
      (valid : newTask program args argsLen = some t)
      (task : s'.task? p = some ⟨some t, false, none⟩)
      (spawns : s'.spawns = s.spawns) :
      TaskMove p s (.new program args argsLen none, .task (some p)) s'
  /-- A builder is called. -/
  | built {l b t inner s'} (builder : okBuilder? p l = some b) (run : l.1.runs p = false)
      (before : s.task? p = some t) (fresh : t.hasRun = false) (there : t.inner = some inner)
      (task : s'.task? p = some { t with inner := some (inner.build b) })
      (spawns : s'.spawns = s.spawns) : TaskMove p s l s'
  /-- A builder panics. -/
  | lost {l s'} (panics : l.1.builderPanics = true) : TaskMove p s l s'
  /-- The run is entered, or the task is found missing. -/
  | ran {l t s'} (builder : okBuilder? p l = none) (run : l.1.runs p = true)
      (before : s.task? p = some t) (fresh : t.hasRun = false)
      (task : s'.task? p = some { t with hasRun := true })
      (spawns : ∀ inner, t.inner = some inner →
        s'.spawns = s.spawns ++ [(p, inner.spawnRequest)]) : TaskMove p s l s'
  /-- Nothing that a run or a builder would see. -/
  | stays {l s'} (builder : okBuilder? p l = none)
      (run : l.1.runs p = true → ∃ t, s.task? p = some t ∧ t.hasRun = true)
      (given : ∀ program args argsLen, l ≠ (.new program args argsLen none, .task (some p)))
      (task : ∀ t', s'.task? p = some t' →
        ∃ t, s.task? p = some t ∧ t'.inner = t.inner ∧ t'.hasRun = t.hasRun)
      (spawns : s'.spawnsOf p = s.spawnsOf p) : TaskMove p s l s'

theorem Call.runs_of_setter {x : Option ℕ × Arg × Option PanicPayload}
    (h : c.setter? = some x) : c.runs p = false := by
  cases c <;> first | rfl | cases h

theorem okBuilder?_of_not_setter (h : c.setter? = none) : okBuilder? p (c, r) = none := by
  simp [okBuilder?, h]

theorem okBuilder?_of_ne_ok (h : r ≠ .code .ok) : okBuilder? p (c, r) = none := by
  unfold okBuilder?
  split
  · next heq => exact absurd heq h
  · rfl

/-- A call that leaves the tasks and the spawns alone. -/
theorem TaskMove.same (builder : okBuilder? p (c, r) = none)
    (run : c.runs p = true → ∃ t, s.task? p = some t ∧ t.hasRun = true)
    (given : ∀ program args argsLen, (c, r) ≠ (.new program args argsLen none, .task (some p)))
    (tasks : s'.tasks = s.tasks) (spawns : s'.spawns = s.spawns) : TaskMove p s (c, r) s' := by
  refine .stays builder run given (fun t' ht' => ?_) (by rw [Ffi.spawnsOf, spawns]; rfl)
  rw [Ffi.task?, tasks] at ht'
  exact ⟨t', ht', rfl, rfl⟩

/-- A call that puts something else behind another pointer. -/
theorem TaskMove.other (builder : okBuilder? p (c, r) = none) (run : c.runs p = false)
    (given : ∀ program args argsLen, (c, r) ≠ (.new program args argsLen none, .task (some p)))
    (task : s'.task? p = s.task? p) (spawns : s'.spawnsOf p = s.spawnsOf p) :
    TaskMove p s (c, r) s' := by
  refine .stays builder (fun h => ?_) given (fun t' ht' => ?_) spawns
  · rw [run] at h
    cases h
  · rw [task] at ht'
    exact ⟨t', ht', rfl, rfl⟩

theorem CallMove.setter_move {x : Option ℕ × Arg × Option PanicPayload}
    (h : CallMove strerror s c s' r) (hc : c.setter? = some x) (p : ℕ) :
    TaskMove p s (c, r) s' := by
  have hrun : c.runs p = false := Call.runs_of_setter hc
  have hrun' : c.runs p = true → ∃ t, s.task? p = some t ∧ t.hasRun = true := fun h => by
    rw [hrun] at h
    cases h
  have hnew : ∀ program args argsLen,
      (c, r) ≠ (Call.new program args argsLen none, Ret.task (some p)) := fun _ _ _ h => by
    cases h
    cases hc
  cases h with
  | setterNull | setterLate | setterInvalid | setterGone =>
    exact .same (okBuilder?_of_ne_ok (by simp)) hrun' hnew rfl rfl
  | @setterOk _ q b t inner args task fresh there =>
    by_cases hq : q = p
    · subst hq
      exact .built (by simp [okBuilder?, args]) hrun task fresh there
        (Ffi.task?_setTask_self task _) rfl
    · refine .other (by simp [okBuilder?, args, hq]) hrun hnew ?_ rfl
      exact Ffi.task?_setTask_ne (Ne.symm hq) _
  | setterPanics args => exact .lost (by simp [Call.builderPanics, args])
  | _ => cases hc

theorem taskMove_of_call (h : CallMove strerror s c s' r) (p : ℕ) : TaskMove p s (c, r) s' := by
  cases hset : c.setter? with
  | some x => exact h.setter_move hset p
  | none =>
    have hb := okBuilder?_of_not_setter (p := p) (r := r) hset
    cases h with
    | setterNull args | setterLate args | setterInvalid args | setterGone args | setterOk args
    | setterPanics args => rw [hset] at args; cases args
    | newInvalid | newPanics | makeNull | makePanics | cancelNull | cancelOk | cancelPanics
    | cancelFreeNull | cancelFree | returnsOk | returnsError | returnsPanic | taskFreeNull =>
      exact .same hb (fun h => by cases h) (by simp) rfl rfl
    | runNull => exact .same hb (fun h => by simp [Call.runs] at h) (by simp) rfl rfl
    | @newOk program args argsLen t valid =>
      by_cases hp : s.tasks.length = p
      · subst hp
        exact .created rfl valid (by simp [Ffi.task?]) rfl
      · refine .other hb rfl (by simp [hp]) ?_ rfl
        simp only [Ffi.task?]
        rcases Nat.lt_or_ge p s.tasks.length with hlt | hge
        · rw [List.getElem?_append_left hlt]
        · rw [List.getElem?_eq_none hge, List.getElem?_eq_none (by simp; omega)]
    | @makeOk q t task =>
      by_cases hq : q = p
      · subst hq
        refine .stays hb (fun h => by cases h) (by simp) (fun t' ht' => ⟨t, task, ?_⟩) rfl
        have := Ffi.task?_setTask_self task { t with cancel := some s.handles.length }
        obtain rfl := Option.some.inj (this.symm.trans ht')
        exact ⟨rfl, rfl⟩
      · exact .other hb rfl (by simp) (Ffi.task?_setTask_ne (Ne.symm hq) _) rfl
    | @runLate q t task hran =>
      refine .same hb (fun h => ?_) (by simp) rfl rfl
      obtain rfl : q = p := by simpa [Call.runs] using h
      exact ⟨t, task, hran⟩
    | @runGone q t task fresh gone =>
      by_cases hq : q = p
      · subst hq
        refine .ran hb (by simp [Call.runs]) task fresh (Ffi.task?_setTask_self task _) ?_
        intro inner there
        rw [gone] at there
        cases there
      · exact .other hb (by simp [Call.runs, hq]) (by simp)
          (Ffi.task?_setTask_ne (Ne.symm hq) _) rfl
    | @runEnters q t inner task fresh there =>
      by_cases hq : q = p
      · subst hq
        refine .ran hb (by simp [Call.runs]) task fresh (Ffi.task?_setTask_self task _) ?_
        intro inner' there'
        obtain rfl := Option.some.inj (there.symm.trans there')
        rfl
      · refine .other hb (by simp [Call.runs, hq]) (by simp)
          (Ffi.task?_setTask_ne (Ne.symm hq) _) ?_
        simp [Ffi.spawnsOf, hq]
    | @taskFree q t task =>
      by_cases hq : q = p
      · subst hq
        refine .stays hb (fun h => by cases h) (by simp) (fun t' ht' => ?_) rfl
        simp [Ffi.task?, List.getElem?_set_self (Ffi.lt_of_task? task)] at ht'
      · refine .other hb rfl (by simp) ?_ rfl
        simp [Ffi.task?, List.getElem?_set_ne hq]

theorem CallMove.tasks_length_le (h : CallMove strerror s c s' r) :
    s.tasks.length ≤ s'.tasks.length := by
  cases h <;> simp [Ffi.setTask, Ffi.clearLastError, Ffi.setLastError]

end Tasks

/-! ### Whole sequences -/

/-- The task behind `p` is the one that the chain makes of `t₀`, and what has been spawned for it
is what the chain has made. -/
structure Follows (p : ℕ) (t₀ : Task) (hist : List (Call × Ret)) (s : Ffi) : Prop where
  /-- The task is there, as the chain has made it, and knows whether it was run. -/
  task : ∀ t, s.task? p = some t →
    t.inner = some ((chain p hist).foldl Task.build t₀) ∧ t.hasRun = ran p hist
  /-- Nothing is spawned before the run, and one process by it. -/
  spawned : s.spawnsOf p =
    if ran p hist then [((chain p hist).foldl Task.build t₀).spawnRequest] else []

/-- The pointer `p`, before it is handed out and after. -/
structure Chained (p : ℕ) (hist : List (Call × Ret)) (s : Ffi) : Prop where
  /-- Nothing has been done with a pointer that does not exist yet. -/
  unborn : s.tasks.length ≤ p → chain p hist = [] ∧ ran p hist = false ∧ s.spawnsOf p = []
  /-- A pointer that was handed out follows its chain. -/
  follows : ∀ program args argsLen, (.new program args argsLen none, .task (some p)) ∈ hist →
    p < s.tasks.length ∧ ∃ t₀, newTask program args argsLen = some t₀ ∧ Follows p t₀ hist s

section Sequences

variable {strerror : ℤ → String} {s s' : Ffi} {c : Call} {r : Ret} {l : Call × Ret} {p : ℕ}
  {t₀ : Task} {hist : List (Call × Ret)}

/-- A pointer that was handed out is not handed out again, and otherwise follows its chain. -/
theorem Follows.move (hf : Follows p t₀ hist s) (h : TaskMove p s l s')
    (hp : p < s.tasks.length) (hl : l.1.builderPanics = false) : Follows p t₀ (hist ++ [l]) s' := by
  cases h with
  | created fresh => omega
  | lost panics => rw [panics] at hl; cases hl
  | @built _ b t inner _ builder run before fresh there task spawns =>
    obtain ⟨hinner, hran⟩ := hf.task t before
    obtain rfl := Option.some.inj (there.symm.trans hinner)
    have hnot : ran p hist = false := hran ▸ fresh
    refine ⟨fun t' ht' => ?_, ?_⟩
    · obtain rfl := Option.some.inj (task.symm.trans ht')
      simp [builder, run, fresh, hnot]
    · have hspawned := hf.spawned
      rw [Ffi.spawnsOf, spawns, ← Ffi.spawnsOf, hspawned]
      simp [run, hnot]
  | @ran _ t _ builder run before fresh task spawns =>
    obtain ⟨hinner, hran⟩ := hf.task t before
    have hnot : ran p hist = false := hran ▸ fresh
    refine ⟨fun t' ht' => ?_, ?_⟩
    · obtain rfl := Option.some.inj (task.symm.trans ht')
      simp [builder, run, hinner]
    · have hspawned := hf.spawned
      simp only [hnot, Bool.false_eq_true, if_false, Ffi.spawnsOf] at hspawned
      simp only [Ffi.spawnsOf, spawns _ hinner, List.filter_append, List.map_append, hspawned]
      simp [builder, run]
  | stays builder run given task spawns =>
    -- a run that is refused finds the flag set
    have hrun : ran p (hist ++ [l]) = ran p hist := by
      cases hr : l.1.runs p with
      | false => simp [hr]
      | true =>
        obtain ⟨t, ht, hran⟩ := run hr
        simp [← (hf.task t ht).2, hran]
    refine ⟨fun t' ht' => ?_, ?_⟩
    · obtain ⟨t, ht, hinner, hran⟩ := task t' ht'
      rw [hrun, hinner, hran, chain_concat, builder]
      simpa using hf.task t ht
    · rw [hrun, spawns, chain_concat, builder, hf.spawned]
      simp

theorem Chained.move (hc : Chained p hist s) (h : CallMove strerror s c s' r)
    (hpanic : c.builderPanics = false) : Chained p (hist ++ [(c, r)]) s' := by
  have hle := h.tasks_length_le
  have hmove := taskMove_of_call h p
  refine ⟨fun hp => ?_, fun program args argsLen hmem => ?_⟩
  · -- a call on a pointer that does not exist is no step
    obtain ⟨hchain, hran, hspawns⟩ := hc.unborn (by omega)
    have hnone : ∀ t, s.task? p ≠ some t := fun t ht => by
      have := Ffi.lt_of_task? ht
      omega
    cases hmove with
    | created _ _ task => have := Ffi.lt_of_task? task; omega
    | lost panics => rw [hpanic] at panics; cases panics
    | built _ _ before => exact absurd before (hnone _)
    | ran _ _ before => exact absurd before (hnone _)
    | stays builder run _ _ spawns =>
      have hrun : c.runs p = false := by
        rw [Bool.eq_false_iff]
        intro hr
        obtain ⟨t, ht, -⟩ := run hr
        exact hnone t ht
      simp [hchain, builder, hran, hrun, spawns, hspawns]
  · rcases List.mem_append.mp hmem with hmem | hmem
    · obtain ⟨hp, t₀, hnew, hf⟩ := hc.follows program args argsLen hmem
      exact ⟨by omega, t₀, hnew, hf.move hmove hp hpanic⟩
    · rw [List.mem_singleton] at hmem
      cases hmove with
      | @created _ _ _ t _ fresh valid task spawns =>
        cases hmem
        obtain ⟨hchain, hran, hspawns⟩ := hc.unborn (by omega)
        refine ⟨Ffi.lt_of_task? task, t, valid, fun t' ht' => ?_, ?_⟩
        · obtain rfl := Option.some.inj (task.symm.trans ht')
          simp [hchain, hran, okBuilder?, Call.setter?, Call.runs]
        · rw [Ffi.spawnsOf, spawns, ← Ffi.spawnsOf, hspawns]
          simp [hran, Call.runs]
      | lost panics => rw [hpanic] at panics; cases panics
      | built builder => cases hmem; cases builder
      | ran _ run => cases hmem; cases run
      | stays _ _ given => exact absurd hmem.symm (given program args argsLen)

theorem chained_of_exec (h : Lts.exec (Ffi.step strerror) Ffi.init hist = some s)
    (hpanic : ∀ l ∈ hist, l.1.builderPanics = false) (p : ℕ) : Chained p hist s := by
  refine Lts.exec_invariant (P := fun hist s => (∀ l ∈ hist, l.1.builderPanics = false) →
    Chained p hist s) ?_ ?_ h hpanic
  · intro _
    exact ⟨fun _ => ⟨rfl, rfl, rfl⟩, fun _ _ _ hmem => by cases hmem⟩
  · intro hist s l s' _ ih hstep hpanic
    have hc := ih fun l' hl' => hpanic l' (List.mem_append_left _ hl')
    exact hc.move (callMove_of_call (call_of_step hstep)) (hpanic l (by simp))

/-! ### The handle as its caller sees it -/

/-- A setter or `aer_task_run` on `p`, with no null pointer among its arguments. -/
def Call.asks (p : ℕ) (c : Call) : Bool :=
  c.runs p ||
    match c.setter? with
    | some (some q, arg, _) => decide (q = p) && decide (arg ≠ .null)
    | _ => false

/-- The task `t` behind the pointer `p` is the builder chain's, and its calls answer as the
chain's owner would. -/
structure HandleRefines (strerror : ℤ → String) (p : ℕ) (t₀ : Task) (hist : List (Call × Ret))
    (s : Ffi) (t : AerTask) : Prop where
  /-- The task is there, as the builders have made it. -/
  inner : t.inner = some ((chain p hist).foldl Task.build t₀)
  /-- A call without a null pointer that returns a code returns `AlreadyRun` exactly after a
  run. -/
  alreadyRun : ∀ c s' r, call strerror s c = some (s', r) → c.asks p = true →
    (r = .code .alreadyRun ↔ ran p hist = true)
  /-- A cancel handle is made before a run and after it. -/
  handle : ∀ s' r, call strerror s (.makeCancelHandle (some p) none) = some (s', r) →
    r = .handle (some s.handles.length)
  /-- A setter that does not return `Ok` changes nothing. -/
  refused : ∀ c s' r, call strerror s c = some (s', r) → c.setter?.isSome = true →
    c.builderPanics = false → r ≠ .code .ok → s' = s
  /-- The keys of the environment are valid and distinct. -/
  env : EnvOk ((chain p hist).foldl Task.build t₀).env
  /-- What has been spawned: nothing before the run, and one process by it, as the builders
  have described it. -/
  spawned : s.spawnsOf p =
    if ran p hist then [((chain p hist).foldl Task.build t₀).spawnRequest] else []

/-- The keys that get past `aer_task_set_env` are valid. -/
theorem keyOk_of_setter {task : Option ℕ} {b : Builder} {panic : Option PanicPayload}
    (h : c.setter? = some (task, .ok b, panic)) : b.keyOk := by
  cases c with
  | setEnv task' key value =>
    have harg : envArg key value = .ok b := by
      simp only [Call.setter?, Option.some.injEq, Prod.mk.injEq] at h
      exact h.2.1
    unfold envArg at harg
    split at harg
    · split at harg
      · split at harg
        · cases harg
        · next hkey =>
          cases harg
          exact ⟨fun he => hkey (.inl he), fun he => hkey (.inr he)⟩
      · cases harg
    · cases harg
  | setCwd task' path =>
    have harg : cwdArg path = .ok b := by
      simp only [Call.setter?, Option.some.injEq, Prod.mk.injEq] at h
      exact h.2.1
    unfold cwdArg at harg
    split at harg
    · cases harg
    · split at harg
      · cases harg
      · split at harg <;> cases harg
        trivial
  | withTimeout | withCaptureOutput | setClearEnv => cases h; trivial
  | _ => cases h

theorem keyOk_of_mem_chain {b : Builder} (h : b ∈ chain p hist) : b.keyOk := by
  obtain ⟨⟨c, r⟩, -, hb⟩ := List.mem_filterMap.mp h
  unfold okBuilder? at hb
  split at hb
  · next hset _ =>
    obtain ⟨-, hb⟩ := Option.ite_none_right_eq_some.mp hb
    cases hb
    exact keyOk_of_setter hset
  · cases hb

theorem env_newTask {program : Option CStr} {args : Option (ℕ → Option CStr)} {argsLen : ℕ}
    (h : newTask program args argsLen = some t₀) : t₀.env = [] := by
  unfold newTask at h
  split at h
  · cases h
  · split at h
    · cases h
    · split at h
      · cases h
      · split at h
        · cases h
        · obtain ⟨argStrings, -, rfl⟩ := Option.map_eq_some_iff.mp h
          rfl

/-- After a run, and only then, a call that asks something of the task is refused as late. -/
theorem CallMove.alreadyRun_iff {t : AerTask} (h : CallMove strerror s c s' r)
    (ht : s.task? p = some t) (hinner : t.inner ≠ none) (hasks : c.asks p = true) :
    r = .code .alreadyRun ↔ t.hasRun = true := by
  -- the call is on this task
  have hsame : ∀ {q t'}, s.task? q = some t' → q = p → t' = t := fun ht' hq => by
    subst hq
    exact Option.some.inj (ht'.symm.trans ht)
  cases h with
  | setterNull args null =>
    simp only [Call.asks, Call.runs_of_setter args, args, Bool.false_or] at hasks
    rcases null with rfl | rfl
    · cases hasks
    · split at hasks <;> simp_all
  | setterLate args _ task hran | setterInvalid args task hran | setterGone args task hran
  | setterOk args task hran | setterPanics args task hran =>
    simp only [Call.asks, Call.runs_of_setter args, args, Bool.false_or, Bool.and_eq_true,
      decide_eq_true_eq] at hasks
    obtain rfl := hsame task hasks.1
    simp_all
  | runNull => simp [Call.asks, Call.runs, Call.setter?] at hasks
  | runLate task hran | runGone task hran | runEnters task hran =>
    obtain rfl := hsame task (by simpa [Call.asks, Call.runs, Call.setter?] using hasks)
    simp_all
  | _ => cases hasks

theorem CallMove.refused (h : CallMove strerror s c s' r) (hset : c.setter?.isSome = true)
    (hpanic : c.builderPanics = false) (hr : r ≠ .code .ok) : s' = s := by
  cases h with
  | setterNull | setterLate | setterInvalid | setterGone => rfl
  | setterOk => exact absurd rfl hr
  | setterPanics args => simp [Call.builderPanics, args] at hpanic
  | _ => cases hset

/-- **The C handle refines the Rust builder.**  Whatever is called in whatever order, the task
behind a pointer is the one that the setters which returned `Ok` make, it is spawned at most
once and as they made it, and the setters that are refused leave no trace. -/
theorem handle_refines_builder {program : Option CStr} {args : Option (ℕ → Option CStr)}
    {argsLen : ℕ} {t : AerTask} (h : Lts.exec (Ffi.step strerror) Ffi.init hist = some s)
    (hnew : (.new program args argsLen none, .task (some p)) ∈ hist)
    (hpanic : ∀ l ∈ hist, l.1.builderPanics = false) (ht : s.task? p = some t) :
    ∃ t₀, newTask program args argsLen = some t₀ ∧ HandleRefines strerror p t₀ hist s t := by
  obtain ⟨-, t₀, hvalid, hf⟩ := (chained_of_exec h hpanic p).follows program args argsLen hnew
  obtain ⟨hinner, hran⟩ := hf.task t ht
  refine ⟨t₀, hvalid, hinner, fun c s' r hcall hasks => ?_, fun s' r hcall => ?_,
    fun c s' r hcall hset hp hr => (callMove_of_call hcall).refused hset hp hr, ?_, hf.spawned⟩
  · rw [(callMove_of_call hcall).alreadyRun_iff ht (by simp [hinner]) hasks, hran]
  · cases callMove_of_call hcall with
    | makeOk => rfl
    | setterNull args | setterLate args | setterInvalid args | setterGone args | setterOk args
    | setterPanics args => cases args
  · refine envOk_foldl_build (fun b hb => keyOk_of_mem_chain hb) ?_
    rw [env_newTask hvalid]
    exact ⟨by simp, List.nodup_nil⟩

end Sequences

/-! ### A task that is built, run and asked again -/

/-- The C string of some bytes; a NUL among them would end it. -/
def cstr (bytes : List UInt8) : Option CStr :=
  if h : 0 ∉ bytes then some ⟨bytes, h⟩ else none

/-- A variable is set twice, one with an `=` in its name and a null path are refused, and the
task is run; after that a timeout is refused. -/
def builtRun : List (Call × Ret) :=
  [(.new (cstr [0x78]) none 0 none, .task (some 0)),
    (.setEnv (some 0) (cstr [0x41]) (cstr [0x31]) none, .code .ok),
    (.setEnv (some 0) (cstr [0x41, 0x3d]) (cstr [0x31]) none, .code .invalidArgument),
    (.setCwd (some 0) none none, .code .nullPointer),
    (.setEnv (some 0) (cstr [0x41]) (cstr [0x32]) none, .code .ok),
    (.run (some 0), .entered), (.runReturns (.returned (.ok ())), .code .ok),
    (.withTimeout (some 0) 5 none, .code .alreadyRun)]

/-- One process has been spawned, with the variable as it was set last. -/
theorem builtRun_refines_builder :
    ∃ s, Lts.exec (Ffi.step fun _ => "") Ffi.init builtRun = some s ∧
      s.spawnsOf 0 = [⟨"x", [], [("A", "2")], false, none⟩] ∧
      ∃ t t₀, s.task? 0 = some t ∧ HandleRefines (fun _ => "") 0 t₀ builtRun s t := by
  obtain ⟨s, hs, hsome, hspawns⟩ : ∃ s, Lts.exec (Ffi.step fun _ => "") Ffi.init builtRun = some s ∧
      (s.task? 0).isSome = true ∧ s.spawnsOf 0 = [⟨"x", [], [("A", "2")], false, none⟩] :=
    Lts.exists_exec_of_any (by decide +kernel)
  obtain ⟨t, ht⟩ := Option.isSome_iff_exists.mp hsome
  obtain ⟨t₀, -, href⟩ := handle_refines_builder (p := 0) hs (.head _) (by decide +kernel) ht
  exact ⟨s, hs, hspawns, t, t₀, ht, href⟩

/-- A cancel handle is asked for after the run, with a pointer that is not null: it is given
out, and the answer is not `AlreadyRun`. -/
theorem lateHandle_is_given_out :
    ∃ s s', Lts.exec (Ffi.step fun _ => "") Ffi.init builtRun = some s ∧ ran 0 builtRun = true ∧
      call (fun _ => "") s (.makeCancelHandle (some 0) none) = some (s', .handle (some 0)) := by
  obtain ⟨s', hs'⟩ : ∃ s', Lts.exec (Ffi.step fun _ => "") Ffi.init
      (builtRun ++ [(.makeCancelHandle (some 0) none, .handle (some 0))]) = some s' ∧ True :=
    Lts.exists_exec_of_any (by decide +kernel)
  obtain ⟨s, hs, hstep⟩ := Lts.exec_concat_eq_some.mp hs'.1
  exact ⟨s, s', hs, rfl, call_of_step hstep⟩

end AerCore
