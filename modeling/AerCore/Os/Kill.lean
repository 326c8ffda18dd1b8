import AerCore.Process

/-!
# Probing and killing a tree

`tree_alive`, `kill_escalating` and `reap_abandoned` of the two backends, one OS
call to a step.  Each is a small machine of its own: a program counter, and a
step function that takes the answer of the OS as its label.  The callers (a
cancelling thread, the timeout monitor, `run_impl` and its drop guard) embed
the program counter in theirs.

Every call site discards the result of `kill_escalating`, so the machine keeps
it only in its final counter.

## Main definitions

* `Reply` — how the OS answers a signal or a query.
* `ProbePc`, `treeAliveStep` — `tree_alive`.
* `KillPc`, `killEscalatingStep` — `kill_escalating`.
* `reapAbandoned` — the blocking `waitpid` of the drop guard.

* `KillMove` — what a step of `kill_escalating` can do.

## Main results

* `treeAliveStep_eq_answer` — a probe answers "alive" unless the OS said that
  there is nothing to signal.
* `killMove_of_step` — every step of `kill_escalating` is a move.
* `killEscalatingStep_tree` — a step of `kill_escalating` leaves the tree alone or
  kills the group or the root by force.
-/

namespace AerCore

/-! ### Answers of the OS -/

/-- The answer to `killpg`, `kill` or a job call: it reached something, there was
nothing to reach (`ESRCH`; no active process in the job), or it was refused. -/
inductive Reply
  | present
  | absent
  | error (e : IoError)
  deriving DecidableEq, Repr

/-- The answers possible when the target exists or not and the call may be
refused or not. -/
def Reply.fits (target refused : Bool) : Reply → Bool
  | .present => target
  | .absent => !target
  | .error _ => refused

/-- The answers to `killpg(pgid, _)`. -/
def Tree.groupReply (env : Env) (t : Tree) (r : Reply) : Bool :=
  r.fits t.groupExists (t.groupExists && !env.permitted)

/-- The answers to `kill(pid, _)`. -/
def Tree.pidReply (env : Env) (t : Tree) (r : Reply) : Bool :=
  r.fits t.pidExists (t.pidExists && !env.permitted)

/-! ### `tree_alive` -/

/-- Where a call of `tree_alive` stands. -/
inductive ProbePc
  /-- Unix: before `killpg(pgid, 0)`. -/
  | group
  /-- Unix: the group answered `ESRCH`; before `kill(pid, 0)`. -/
  | pid
  /-- Windows: before `QueryInformationJobObject`. -/
  | query
  deriving DecidableEq, Repr

/-- The first call of `tree_alive`. -/
def ProbePc.entry : Platform → ProbePc
  | .unix => .group
  | .windows => .query

/-- One OS call of `tree_alive`: the next call, or the answer.  Anything but
"nothing there" counts as alive. -/
def treeAliveStep (env : Env) (t : Tree) : ProbePc → Reply → Option (ProbePc ⊕ Bool)
  | .group, r =>
      if t.groupReply env r then
        some (if r = .absent then .inl .pid else .inr true)
      else none
  | .pid, r => if t.pidReply env r then some (.inr (decide (r ≠ .absent))) else none
  | .query, r =>
      if r.fits t.groupLive (!env.permitted) then some (.inr (decide (r ≠ .absent))) else none

/-! ### `kill_escalating` -/

/-- The grace period a caller passes. -/
inductive Grace
  /-- `Duration::ZERO`, from the drop guard. -/
  | zero
  /-- `KILL_GRACE`, five seconds. -/
  | killGrace
  deriving DecidableEq, Repr

/-- Where a call of `kill_escalating` stands. -/
inductive KillPc
  /-- Before `killpg(pgid, SIGTERM)`. -/
  | term
  /-- The group answered `ESRCH`; before `kill(pid, SIGTERM)`. -/
  | termPid
  /-- In the poll loop, inside `tree_alive`. -/
  | poll (p : ProbePc)
  /-- The probe answered "alive"; before the deadline is compared with the clock. -/
  | clock
  /-- Before `killpg(pgid, SIGKILL)`. -/
  | kill
  /-- The group answered `ESRCH`; before `kill(pid, SIGKILL)`. -/
  | killPid
  /-- Windows: before `TerminateJobObject`. -/
  | terminate
  /-- The call has returned. -/
  | done (result : Except AerError Unit)
  deriving DecidableEq

/-- The first call of `kill_escalating`. -/
def KillPc.entry : Platform → KillPc
  | .unix => .term
  | .windows => .terminate

/-- The steps of `kill_escalating`, each with the answer it gets. -/
inductive KillAct
  | term (r : Reply)
  | termPid (r : Reply)
  | probe (r : Reply)
  /-- The clock is read: the deadline has passed or it has not, and then the
  caller sleeps before the next poll. -/
  | clock (expired : Bool)
  | kill (r : Reply)
  | killPid (r : Reply)
  | terminate (r : Reply)
  deriving DecidableEq, Repr

/-- The step sends a signal other than 0, or terminates the job. -/
def KillAct.signals : KillAct → Bool
  | .term _ | .termPid _ | .kill _ | .killPid _ | .terminate _ => true
  | .probe _ | .clock _ => false

/-- A signal to the group, or the end of the job, is refused. -/
def KillAct.refused : KillAct → Bool
  | .term (.error _) | .kill (.error _) | .terminate (.error _) => true
  | _ => false

/-- The exit code `TerminateJobObject(job, 1)` and `TerminateProcess` give. -/
def terminatedStatus : Option ℤ := some 1

/-- One step of `kill_escalating`.  With a grace of zero the deadline is the time
it was computed at, so it has passed when the clock is read again. -/
def killEscalatingStep (env : Env) (grace : Grace) (t : Tree) :
    KillPc → KillAct → Option (Tree × KillPc)
  | .term, .term r =>
      if t.groupReply env r then
        some (t, match r with
          | .present => .poll .group
          | .absent => .termPid
          | .error e => .done (.error (.killFailed e)))
      else none
  -- the answer of the fallback is ignored
  | .termPid, .termPid r => if t.pidReply env r then some (t, .poll .group) else none
  | .poll p, .probe r =>
      (treeAliveStep env t p r).map fun
        | .inl p' => (t, .poll p')
        | .inr true => (t, .clock)
        | .inr false => (t, .done (.ok ()))
  -- a deadline that has not passed is followed by a sleep and another poll
  | .clock, .clock expired =>
      if grace = .zero → expired = true then
        some (t, if expired then .kill else .poll .group)
      else none
  | .kill, .kill r =>
      if t.groupReply env r then
        some (match r with
          | .present => (t.killGroup none, .done (.ok ()))
          | .absent => (t, .killPid)
          | .error e => (t, .done (.error (.killFailed e))))
      else none
  | .killPid, .killPid r =>
      if t.pidReply env r then
        some (if r = .present then t.killRoot none else t, .done (.ok ()))
      else none
  | .terminate, .terminate r =>
      if r.fits true (!env.permitted) then
        some (match r with
          | .error e => (t, .done (.error (.killFailed e)))
          | _ => (t.killGroup terminatedStatus, .done (.ok ())))
      else none
  | _, _ => none

/-! ### `reap_abandoned` -/

/-- How the blocking `waitpid` of `reap_abandoned` comes back. -/
inductive WaitpidReply
  /-- With the status of the root, or with `ECHILD` where it has been reaped. -/
  | returned
  /-- With `EINTR`: a signal handler ran on the thread before the root could be
  waited for. -/
  | interrupted
  deriving DecidableEq, Repr

/-- `reap_abandoned`: on Unix one blocking `waitpid` on the root, whose answer is
ignored and which is not repeated after `EINTR`; nothing on Windows.  `none` while
`waitpid` blocks. -/
def reapAbandoned (env : Env) (t : Tree) : WaitpidReply → Option Tree
  | .returned =>
      match env.platform with
      | .unix => t.reapRoot
      | .windows => some t
  -- a root that has been reaped is no child any more: `ECHILD`, without blocking
  | .interrupted => if env.platform = .unix ∧ t.pidExists then some t else none

/-! ### What a step can do -/

/-- `reap_abandoned` reaps the root or leaves the tree as it is. -/
theorem reapAbandoned_cases {env : Env} {t t' : Tree} {x : WaitpidReply}
    (h : reapAbandoned env t x = some t') :
    (env.platform = .unix ∧ x = .returned ∧ t.reapRoot = some t') ∨ t' = t := by
  cases x with
  | returned =>
    simp only [reapAbandoned] at h
    split at h
    · next hu => exact .inl ⟨hu, rfl, h⟩
    · cases h; exact .inr rfl
  | interrupted =>
    simp only [reapAbandoned, Option.ite_none_right_eq_some, Option.some.injEq] at h
    exact .inr h.2.symm

/-- A probe answers "alive" exactly when the OS did not say that there is nothing
to signal. -/
theorem treeAliveStep_eq_answer {env : Env} {t : Tree} {p : ProbePc} {r : Reply} {alive : Bool}
    (h : treeAliveStep env t p r = some (.inr alive)) : alive = decide (r ≠ .absent) := by
  cases p with
  | group =>
    simp only [treeAliveStep, Option.ite_none_right_eq_some, Option.some.injEq] at h
    obtain ⟨-, h⟩ := h
    split at h
    · simp at h
    · next hr => simpa [hr] using h.symm
  | pid | query =>
    simp only [treeAliveStep, Option.ite_none_right_eq_some, Option.some.injEq,
      Sum.inr.injEq] at h
    exact h.2.symm

/-- Only the probe of a group that does not exist is followed by another call. -/
theorem treeAliveStep_eq_more {env : Env} {t : Tree} {p p' : ProbePc} {r : Reply}
    (h : treeAliveStep env t p r = some (.inl p')) :
    p = .group ∧ p' = .pid ∧ r = .absent ∧ t.groupExists = false := by
  cases p with
  | group =>
    simp only [treeAliveStep, Option.ite_none_right_eq_some, Option.some.injEq] at h
    obtain ⟨hr, h⟩ := h
    split at h
    · next hx =>
      cases h
      subst hx
      exact ⟨rfl, rfl, rfl, by simpa [Tree.groupReply, Reply.fits] using hr⟩
    · cases h
  | pid | query => simp [treeAliveStep] at h

/-- The moves of `kill_escalating`. -/
inductive KillMove (env : Env) (grace : Grace) (t : Tree) : KillPc → KillAct → Tree → KillPc → Prop
  | termPresent (h : t.groupReply env .present = true) :
      KillMove env grace t .term (.term .present) t (.poll .group)
  | termAbsent (h : t.groupReply env .absent = true) :
      KillMove env grace t .term (.term .absent) t .termPid
  | termRefused {e} (h : t.groupReply env (.error e) = true) :
      KillMove env grace t .term (.term (.error e)) t (.done (.error (.killFailed e)))
  | termPid {r} (h : t.pidReply env r = true) :
      KillMove env grace t .termPid (.termPid r) t (.poll .group)
  | probeMore {p p' r} (h : treeAliveStep env t p r = some (.inl p')) :
      KillMove env grace t (.poll p) (.probe r) t (.poll p')
  | probeAlive {p r} (h : treeAliveStep env t p r = some (.inr true)) :
      KillMove env grace t (.poll p) (.probe r) t .clock
  | probeDead {p r} (h : treeAliveStep env t p r = some (.inr false)) :
      KillMove env grace t (.poll p) (.probe r) t (.done (.ok ()))
  | sleep (h : grace ≠ .zero) : KillMove env grace t .clock (.clock false) t (.poll .group)
  | expired : KillMove env grace t .clock (.clock true) t .kill
  | killPresent (h : t.groupReply env .present = true) :
      KillMove env grace t .kill (.kill .present) (t.killGroup none) (.done (.ok ()))
  | killAbsent (h : t.groupReply env .absent = true) :
      KillMove env grace t .kill (.kill .absent) t .killPid
  | killRefused {e} (h : t.groupReply env (.error e) = true) :
      KillMove env grace t .kill (.kill (.error e)) t (.done (.error (.killFailed e)))
  | killPidPresent (h : t.pidReply env .present = true) :
      KillMove env grace t .killPid (.killPid .present) (t.killRoot none) (.done (.ok ()))
  | killPidFails {r} (h : t.pidReply env r = true) (hr : r ≠ .present) :
      KillMove env grace t .killPid (.killPid r) t (.done (.ok ()))
  | terminate {r} (h : r.fits true (!env.permitted) = true) (hr : ∀ e, r ≠ .error e) :
      KillMove env grace t .terminate (.terminate r) (t.killGroup terminatedStatus)
        (.done (.ok ()))
  | terminateRefused {e} (h : Reply.fits true (!env.permitted) (.error e) = true) :
      KillMove env grace t .terminate (.terminate (.error e)) t (.done (.error (.killFailed e)))

/-- Every step of `kill_escalating` is a move. -/
theorem killMove_of_step {env : Env} {grace : Grace} {t t' : Tree} {k k' : KillPc} {a : KillAct}
    (h : killEscalatingStep env grace t k a = some (t', k')) : KillMove env grace t k a t' k' := by
  unfold killEscalatingStep at h
  split at h <;> simp only [Option.ite_none_right_eq_some, Option.some.injEq, Prod.mk.injEq,
    Option.map_eq_some_iff, reduceCtorEq] at h
  · next r =>
    obtain ⟨hr, rfl, rfl⟩ := h
    cases r with
    | present => exact .termPresent hr
    | absent => exact .termAbsent hr
    | error e => exact .termRefused hr
  · obtain ⟨hr, rfl, rfl⟩ := h
    exact .termPid hr
  · obtain ⟨x, hx, heq⟩ := h
    rcases x with p' | _ | _ <;> cases heq
    · exact .probeMore hx
    · exact .probeDead hx
    · exact .probeAlive hx
  · next expired =>
    obtain ⟨hg, rfl, rfl⟩ := h
    cases expired with
    | true => exact .expired
    | false => exact .sleep fun hz => by cases hg hz
  · next r =>
    obtain ⟨hr, heq⟩ := h
    cases r with
    | present => cases heq; exact .killPresent hr
    | absent => cases heq; exact .killAbsent hr
    | error e => cases heq; exact .killRefused hr
  · next r =>
    obtain ⟨hr, rfl, rfl⟩ := h
    by_cases hp : r = .present
    · subst hp
      exact .killPidPresent hr
    · rw [if_neg hp]
      exact .killPidFails hr hp
  · next r =>
    obtain ⟨hr, heq⟩ := h
    cases r with
    | present | absent => cases heq; exact .terminate hr (by simp)
    | error e => cases heq; exact .terminateRefused hr

/-- Every move of `kill_escalating` is a step. -/
theorem KillMove.step {env : Env} {grace : Grace} {t t' : Tree} {k k' : KillPc} {a : KillAct}
    (h : KillMove env grace t k a t' k') : killEscalatingStep env grace t k a = some (t', k') := by
  cases h with
  | @terminate r h hr =>
    cases r with
    | error e => exact absurd rfl (hr e)
    | _ => simp [killEscalatingStep, h]
  | killPidFails h hr => simp [killEscalatingStep, h, hr]
  | _ => simp_all [killEscalatingStep]

/-- A step of `kill_escalating` leaves the tree alone, or kills by force: the
whole group, or the root alone. -/
theorem killEscalatingStep_tree {env : Env} {grace : Grace} {t t' : Tree} {k k' : KillPc}
    {a : KillAct} (h : killEscalatingStep env grace t k a = some (t', k')) :
    t' = t ∨ (∃ status, t' = t.killGroup status) ∨ ∃ status, t' = t.killRoot status := by
  cases killMove_of_step h with
  | killPresent | terminate => exact .inr (.inl ⟨_, rfl⟩)
  | killPidPresent => exact .inr (.inr ⟨_, rfl⟩)
  | _ => exact .inl rfl

end AerCore
