import AerCore.Deadline

/-!
# Deadlock freedom

The threads of a run wait for each other and for the processes, and the processes wait for
the pipes.  On Unix no such wait is circular.  `Stuck` names what a run can be waiting for,
and each of its cases is excluded or broken by a process: the root that is waited for runs,
and its pipes are empty; a pipe whose drain thread is joined has lost its holders to the
closing kill; and the guard waits for a root it has killed.

One case remains.  With capture, a `wait` that panics after it has started one of its drain
threads leaves the run thread to the sender of that thread, and nobody kills the tree.

## Main definitions

* `Enabled` — a thread the run can count on has a step.
* `Unblocked` — no pipe keeps a process.
* `DeadlockFree` — a thread or a process can go on, a thread once the root is dead, and no
  full pipe stays full.

## Main results

* `quiet_of_joins` — nothing runs in the group once `wait` joins its drain threads.
* `enabled_or_stuck` — a run that has not been left has a step, or is stuck.
* `leads_to_room` — a full pipe is emptied, or its writers are dead.
* `supervisor_never_deadlocks` — **no deadlock, if the second drain thread starts**.
* `lostDrain_deadlocks` — otherwise the run waits for a tree that nobody kills.
-/

namespace AerCore

variable {ι : Type*}

/-! ### After the closing kill -/

/-- `wait` has killed what was left of the tree, and joins its drain threads. -/
def WaitPc.joins : WaitPc → Bool
  | .joinOut _ | .joinErr _ => true
  | _ => false

section Joins

variable {env : Env} {c : RunConfig} {i : ι} {hd : CancelHandle ι} {r r' : Run} {l : Label ι}

/-- The closing kill has been made, whatever `child.wait()` had returned. -/
theorem WaitMove.quiet {capture : Bool} {t t' : Tree} {o o' : Output} {x x' : Waiter}
    {a : WaitAct} (h : WaitMove env capture t o x a t' o' x')
    (hq : x.pc.joins = true → Quiet env t) (hx : x'.pc.joins = true) : Quiet env t' := by
  cases h with
  | killTree _ h => exact killTree_quiet h
  | joinOut pc => exact hq (by rw [pc]; rfl)
  | childWait | childWaitFails =>
    cases hp : env.platform <;> simp [WaitPc.afterChildWait, WaitPc.joins, hp] at hx
  | _ => cases hx

theorem joins_move [DecidableEq ι] (h : RunMove env c i hd r l r')
    (hr : Unstarted env r) (hq : r.waiter.pc.joins = true → Quiet env r.tree)
    (hx : r'.waiter.pc.joins = true) : Quiet env r'.tree := by
  have htree := h.tree
  cases h with
  | @main a _ _ h =>
    have hx₀ : r.waiter.pc.joins = true := by
      rcases h.waiter with hw | ⟨-, -, hw⟩ | hw <;> rw [hw] at hx
      · exact hx
      · cases hx
      · exact hx
    -- while `spawn` runs, `wait` has not been called
    have hspawn : ∀ b, a ≠ .spawn b := by
      rintro b rfl
      obtain ⟨s, hs⟩ := h.edge.spawning
      rw [hr s hs] at hx₀
      cases hx₀
    exact fun hp => (htree (by simpa using hspawn)).live.groupLive (hq hx₀ hp)
  | monitor h =>
    have hw := h.waiter_eq
    exact fun hp => (htree (by simp)).live.groupLive (hq (hw ▸ hx) hp)
  | wait h => exact h.quiet hq hx
  | drain | proc | cancelKill => exact fun hp => (htree (by simp)).live.groupLive (hq hx hp)
  | other => exact hq hx

end Joins

section Runs

variable [DecidableEq ι] {env : Env} {cfg : ι → RunConfig} {tr : List (Label ι)} {w : World ι}
  {i : ι}

/-- Nothing runs in the group once `wait` joins its drain threads. -/
theorem quiet_of_joins (h : Reaches env cfg tr w)
    (hx : (w.runs i).waiter.pc.joins = true) : Quiet env (w.runs i).tree := by
  refine Lts.exec_invariant (P := fun _ w => (w.runs i).waiter.pc.joins = true →
    Quiet env (w.runs i).tree) ?_ ?_ h hx
  · intro hx
    cases hx
  · intro _ w l w' hw hq hstep hx
    exact joins_move (runMove_of_step hstep i) (unstarted_of_reaches hw i) hq hx

/-! ### Threads and processes that can go on -/

/-- The step is one the run can count on: its run thread, its `wait` or one of its drain
threads makes it, or a call of `cancel()` that holds the slot mutex or that its callback has
made. -/
def Label.serves (w : World ι) (i : ι) : Label ι → Bool
  | .cancel q _ => (w.callers q).holdsLock || decide (q = .callback i)
  | l => l.attends i

/-- A thread that run `i` can count on has a step. -/
def Enabled (env : Env) (cfg : ι → RunConfig) (i : ι) (w : World ι) : Prop :=
  ∃ l w', l.granted = true ∧ l.serves w i = true ∧ step env cfg w l = some w'

/-- No pipe keeps the process: it can write to every stream it holds, unless the reader of the
stream is gone, and then no write blocks. -/
def Unblocked (env : Env) (r : Run) (who : Who) : Prop :=
  ∀ p s, r.tree.proc? who = some p → p.holds s = true →
    (r.output.drain s).pc = .done ∨ ∀ b, (procStep env r.tree (.write who s [b])).isSome = true

/-- The stream has room, or nobody can be blocked on it: its reader is gone, or nothing runs
in the group. -/
def HasRoom (env : Env) (i : ι) (s : Stream) (w : World ι) : Prop :=
  ((w.runs i).tree.buf s).length < env.pipeCapacity ∨ ((w.runs i).output.drain s).pc = .done ∨
    (w.runs i).tree.groupLive = false

/-- What deadlock freedom asks of a world. -/
structure DeadlockFree (env : Env) (cfg : ι → RunConfig) (i : ι) (w : World ι) : Prop where
  /-- Until the run has been left, a thread or a live process of the group can go on. -/
  live : ¬Finished i w → Enabled env cfg i w ∨
    ∃ who p, (w.runs i).tree.proc? who = some p ∧ p.inGroup = true ∧
      Unblocked env (w.runs i) who
  /-- Once the root is dead, a thread can. -/
  rootDead : ¬Finished i w → (w.runs i).tree.rootLive = false → Enabled env cfg i w
  /-- No pipe stays full: no process of the group is blocked for good. -/
  pipes : ∀ s, Lts.Leads (step env cfg) (fun l => l.granted = true) w (HasRoom env i s)

theorem Label.serves_of_attends {l : Label ι} (h : l.attends i = true) (w : World ι) :
    l.serves w i = true := by
  cases l <;> first | exact h | cases h

/-- **A run that has not been left has a step, or is stuck.**  A mutex it waits for is held by
a call of `cancel()` that goes on, and so does the call its callback has made. -/
theorem enabled_or_stuck (h : Reaches env cfg tr w) (hu : env.platform = .unix)
    (hfin : ¬Finished i w) : Enabled env cfg i w ∨ Stuck (cfg i) (w.runs i) := by
  by_cases hback : w.callers (.callback i) = .idle
  · by_cases hlocked : w.handle.locked = true
    · obtain ⟨q, hq⟩ := exists_holder_of_reaches h hlocked
      have hne : w.callers q ≠ .idle := fun hi => by rw [hi] at hq; cases hq
      obtain ⟨a, w', hg, hstep, -⟩ := caller_advances h hne
      exact .inl ⟨_, w', hg, by simp [Label.serves, hq], hstep⟩
    · have hgo := goes_on_or_stuck h hu (fun o ho => hfin ⟨o, ho⟩)
        (fun _ => by simpa using hlocked) fun _ => hback
      refine hgo.imp (fun hgo => ?_) id
      obtain ⟨l, w', hg, hattends, hstep, -⟩ := hgo
      exact ⟨l, w', hg, Label.serves_of_attends hattends w, hstep⟩
  · obtain ⟨a, w', hg, hstep, -⟩ := caller_advances h hback
    exact .inl ⟨_, w', hg, by simp [Label.serves], hstep⟩

/-! ### What a stuck run waits for -/

/-- On Unix, with descendants in the group, a tree in whose group nothing runs is dead and
holds no pipe. -/
theorem not_held_of_quiet (h : Reaches env cfg tr w) (hu : env.platform = .unix)
    (hp : env.permitted = true) (hclosed : env.closed = true)
    (hl : (w.runs i).tree.groupLive = false) (s : Stream) : (w.runs i).tree.held s = false := by
  rw [Bool.eq_false_iff]
  intro hheld
  obtain ⟨who, p, hproc, -⟩ := Tree.held_iff.mp hheld
  have hin := (enclosed_of_unix h hu hp hclosed i).inGroup hu hproc
  rw [Tree.groupLive_iff.mpr ⟨who, p, hproc, hin⟩] at hl
  cases hl

/-- **A run is stuck only on a root that runs and whose pipes are empty.** -/
theorem root_of_stuck (h : Reaches env cfg tr w) (hu : env.platform = .unix)
    (hp : env.permitted = true) (hclosed : env.closed = true) (hq : Deserted (cfg i) (w.runs i))
    (hstuck : Stuck (cfg i) (w.runs i)) :
    (w.runs i).main.underway = true ∧ (w.runs i).tree.root = .live ∧
      ∀ s, ((w.runs i).output.drain s).pc = .done ∨ (w.runs i).tree.buf s = [] := by
  cases hstuck with
  | root main _ live drains =>
    exact ⟨MainPc.underway_of_awaits main, live, fun s => (drains s).imp id fun hs => hs.2.1⟩
  | @join s main pc drain =>
    -- the closing kill has left no holder
    have hjoins : (w.runs i).waiter.pc.joins = true := by
      obtain ⟨res, hpc | hpc⟩ := pc <;> rw [hpc] <;> rfl
    have hfree := not_held_of_quiet h hu hp hclosed (quiet_of_joins h hjoins hp) s
    rw [drain.2.2] at hfree
    cases hfree
  | @pump s main pc drain =>
    -- no drain thread was started
    have hcap := (lifecycle_of_reaches h i).path true (by rw [main]; rfl)
    have hidle := hq pc hcap s
    rw [drain.1] at hidle
    cases hidle
  | @guard o main live =>
    -- the guard has killed the group, and the root with it
    have hc := cleanedUp_of_reaches h hp i
    rw [main] at hc
    exact absurd live ((rooted_of_reaches h hu i).not_live (by rw [main]; rfl) hc)

theorem unblocked_of_empty {r : Run} (hcap : 0 < env.pipeCapacity)
    (hbuf : ∀ s, (r.output.drain s).pc = .done ∨ r.tree.buf s = []) (who : Who) :
    Unblocked env r who := by
  intro p s hproc hholds
  refine (hbuf s).imp id fun hnil b => ?_
  simp [procStep, hproc, hholds, hnil]
  omega

/-! ### Full pipes -/

theorem deserted_step {w' : World ι} {l : Label ι} (h : Reaches env cfg tr w)
    (hu : env.platform = .unix) (hg : l.granted = true) (hstep : step env cfg w l = some w')
    (hq : Deserted (cfg i) (w.runs i)) : Deserted (cfg i) (w'.runs i) := by
  refine deserted_move (runMove_of_step hstep i) hu (drained_of_reaches h hu i) ?_ hq
  cases l with
  | wait j a =>
    cases a with
    | startErr ok => cases ok <;> first | rfl | cases hg
    | _ => rfl
  | _ => rfl

/-- **A full pipe is emptied, or nobody is left to write to it.** -/
theorem leads_to_room (h : Reaches env cfg tr w) (hu : env.platform = .unix)
    (hp : env.permitted = true) (hclosed : env.closed = true) (hcap : 0 < env.pipeCapacity)
    (hq : Deserted (cfg i) (w.runs i)) (s : Stream) :
    Lts.Leads (step env cfg) (fun l => l.granted = true) w (HasRoom env i s) := by
  have hsettle := callers_settle (Q := fun w => Deserted (cfg i) (w.runs i)) h hq
    fun tr w q a w' hw hq hg hstep => deserted_step hw hu hg hstep hq
  refine (hsettle.imp (fun _ hl => hl.1) fun _ hw => hw).bind fun w₁ hw₁ => ?_
  -- the run goes on until the drain thread reads, or until the group is dead
  refine Lts.leads_of_measure (fun w => (w.runs i).rank)
    (I := fun w => (∃ tr, Reaches env cfg tr w) ∧ (∀ q, w.callers q = .idle) ∧
      Deserted (cfg i) (w.runs i)) ?_ hw₁
  rintro w ⟨⟨tr, h⟩, hidle, hq⟩
  by_cases hroom : HasRoom env i s w
  · exact .inl hroom
  · have hfin : ¬Finished i w := by
      rintro ⟨o, ho⟩
      have he := enclosed_of_unix h hu hp hclosed i
      rw [ho] at he
      refine hroom (.inr (.inr ?_))
      rw [Bool.eq_false_iff]
      intro hl
      obtain ⟨who, p, hproc, -⟩ := Tree.groupLive_iff.mp hl
      rw [Tree.dead_iff.mp he who] at hproc
      cases hproc
    have hfree : w.handle.locked = false := by
      by_contra hl
      obtain ⟨q, hq⟩ := exists_holder_of_reaches h (by simpa using hl)
      rw [hidle q] at hq
      cases hq
    rcases goes_on_or_stuck h hu (fun o ho => hfin ⟨o, ho⟩) (fun _ => hfree)
      fun _ => hidle (.callback i) with hgo | hstuck
    · obtain ⟨l, w', hg, -, hstep, hcallers, -, hlt⟩ := hgo
      refine .inr ⟨l, w', hg, hstep, ⟨⟨_, Lts.exec_concat_eq_some.mpr ⟨w, h, hstep⟩⟩, ?_,
        deserted_step h hu hg hstep hq⟩, hlt⟩
      rw [hcallers]
      exact hidle
    · -- a run that is stuck has read what there is
      obtain ⟨-, -, hbuf⟩ := root_of_stuck h hu hp hclosed hq hstuck
      rcases hbuf s with hdone | hnil
      · exact .inl (.inr (.inl hdone))
      · exact .inl (.inl (by rw [hnil]; exact hcap))

/-- **The supervisor never deadlocks on Unix, if the second drain thread starts.** -/
theorem supervisor_never_deadlocks (h : Reaches env cfg tr w) (hunix : env.platform = .unix)
    (hpermitted : env.permitted = true) (hclosed : env.closed = true)
    (hcap : 0 < env.pipeCapacity) (hstart : ∀ l ∈ tr, l.losesDrain cfg i = false) :
    DeadlockFree env cfg i w := by
  have hq := deserted_of_reaches h hunix hstart
  have hstuck := root_of_stuck h hunix hpermitted hclosed hq
  refine ⟨fun hfin => ?_, fun hfin hroot => ?_, fun s => ?_⟩
  · refine (enabled_or_stuck h hunix hfin).imp id fun hs => ?_
    obtain ⟨hunder, hlive, hbuf⟩ := hstuck hs
    exact ⟨.root, _, Tree.proc?_root_eq_some.mpr ⟨hlive, rfl⟩,
      ((rooted_of_reaches h hunix i).led hunder).2, unblocked_of_empty hcap hbuf .root⟩
  · refine (enabled_or_stuck h hunix hfin).resolve_right fun hs => ?_
    exact Tree.rootLive_eq_false_iff.mp hroot (hstuck hs).2.1
  · exact leads_to_room h hunix hpermitted hclosed hcap hq s

end Runs

/-! ### A drain thread that is left behind -/

/-- A run with capture.  The thread that reads stderr is started or not; then the root creates
a process and exits. -/
def forkedRun (ok : Bool) : List (Label Unit) :=
  beginRun () 7 ++
  [.main () .openChannel, .main () .dropTx, .main () (.startWait true),
    .wait () (.startOut true), .wait () (.startErr ok), .proc () (.fork .root),
    .proc () (.rootExit (some 0))]

/-- It is started: the wait thread goes on and kills what the root has left. -/
theorem forkedRun_goes_on :
    ∃ w, Reaches Env.posix (fun _ => ⟨none, true, true⟩) (forkedRun true) w ∧
      (w.runs ()).tree.rootLive = false ∧ (w.runs ()).tree.held .stdout = true ∧
      Enabled Env.posix (fun _ => ⟨none, true, true⟩) () w := by
  obtain ⟨w, hw, hmain, hroot, hheld⟩ :
      ∃ w, Reaches Env.posix (fun _ => ⟨none, true, true⟩) (forkedRun true) w ∧
        (w.runs ()).main = .pump ∧ (w.runs ()).tree.rootLive = false ∧
        (w.runs ()).tree.held .stdout = true :=
    Lts.exists_exec_of_any (by decide +kernel)
  have hfree := supervisor_never_deadlocks hw rfl rfl rfl (by decide) (i := ()) (by decide)
  refine ⟨w, hw, hroot, hheld, hfree.rootDead ?_ hroot⟩
  rintro ⟨o, ho⟩
  rw [hmain] at ho
  cases ho

/-- The thread that reads stdout has nothing to read, the run thread waits for its sender, and
`wait` has panicked. -/
structure Forsaken (r : Run) : Prop where
  /-- The run thread waits for chunks. -/
  main : r.main = .pump
  /-- There is none, and a sender is left. -/
  chunks : r.output.chunks.queue = [] ∧ r.output.chunks.closed = false
  /-- `wait` has panicked. -/
  wait : r.waiter.pc = .panicked
  /-- No monitor was started. -/
  monitor : r.monitor = .idle
  /-- Each drain thread waits for a process, or was not started. -/
  drains : ∀ s, (r.output.drain s).pc = .idle ∨ Starved r s

instance (r : Run) (s : Stream) : Decidable (Starved r s) :=
  inferInstanceAs (Decidable (_ ∧ _ ∧ _))

/-- No thread of a forsaken run can go on. -/
theorem Forsaken.blocked {env : Env} {cfg : Unit → RunConfig} {w : World Unit}
    (hf : Forsaken (w.runs ())) (hidle : ∀ q, w.callers q = .idle) {l : Label Unit}
    (hg : l.granted = true) : step env cfg w l = none := by
  rw [Option.eq_none_iff_forall_ne_some]
  intro w' hstep
  have hmove := runMove_of_step hstep ()
  generalize w'.runs () = r' at hmove
  cases l with
  | cancel q a =>
    cases cancelMove_of_step hstep with
    | swapFirst | swapAgain => cases hg
    | _ pc => rw [hidle q] at pc; cases pc
  | main _ a =>
    cases hmove with
    | other h => simp [Label.touches] at h
    | main h =>
      cases h with
      | recv _ queue => rw [hf.chunks.1] at queue; cases queue
      | recvClosed _ _ closed => rw [hf.chunks.2] at closed; cases closed
      | _ pc => rw [hf.main] at pc; cases pc
  | monitor _ a =>
    cases hmove with
    | other h => simp [Label.touches] at h
    | monitor h => exact h.monitor_ne_idle hf.monitor
  | wait _ a =>
    cases hmove with
    | other h => simp [Label.touches] at h
    | wait h =>
      cases h with
      | _ pc => rw [hf.wait] at pc; cases pc
  | drain _ s a =>
    cases hmove with
    | other h => simp [Label.touches] at h
    | drain h =>
      -- the pipe is empty and held, so the read does not return
      obtain ⟨hpc, hbuf, hheld⟩ := (hf.drains s).resolve_left h.pc_ne_idle
      cases h with
      | readBytes _ pos _ unread =>
        rw [hbuf, List.isPrefixOf_length_pos_nil pos] at unread
        cases unread
      | readEof _ _ free => rw [hheld] at free; cases free
      | readInterrupted | readError => cases hg
      | send pc => rw [hpc] at pc; cases pc
  | proc _ a => cases hg

/-- It is not started: the root is dead, a process it has created holds the pipes, the run has
not been left, and no thread can go on. -/
theorem lostDrain_deadlocks :
    ∃ w, Reaches Env.posix (fun _ => ⟨none, true, true⟩) (forkedRun false) w ∧
      (w.runs ()).tree.rootLive = false ∧ (w.runs ()).tree.groupLive = true ∧
      (∀ l, l.granted = true → step Env.posix (fun _ => ⟨none, true, true⟩) w l = none) ∧
      ¬DeadlockFree Env.posix (fun _ => ⟨none, true, true⟩) () w := by
  obtain ⟨w, hw, hfresh, hroot, hlive, hmain, hchunks, hwait, hmon, hout, herr⟩ :
      ∃ w, Reaches Env.posix (fun _ => ⟨none, true, true⟩) (forkedRun false) w ∧
        w.handle.cancelled = false ∧ (w.runs ()).tree.rootLive = false ∧
        (w.runs ()).tree.groupLive = true ∧ (w.runs ()).main = .pump ∧
        ((w.runs ()).output.chunks.queue = [] ∧ (w.runs ()).output.chunks.closed = false) ∧
        (w.runs ()).waiter.pc = .panicked ∧ (w.runs ()).monitor = .idle ∧
        Starved (w.runs ()) .stdout ∧ ((w.runs ()).output.drain .stderr).pc = .idle :=
    Lts.exists_exec_of_any (by decide +kernel)
  have hf : Forsaken (w.runs ()) := by
    refine ⟨hmain, hchunks, hwait, hmon, fun s => ?_⟩
    cases s
    · exact .inr hout
    · exact .inl herr
  have hblocked : ∀ l : Label Unit, l.granted = true →
      step Env.posix (fun _ => ⟨none, true, true⟩) w l = none :=
    fun l hg => hf.blocked ((guarded_of_reaches hw).idle hfresh) hg
  have hfin : ¬Finished () w := by
    rintro ⟨o, ho⟩
    rw [hmain] at ho
    cases ho
  refine ⟨w, hw, hroot, hlive, hblocked, fun hfree => ?_⟩
  obtain ⟨l, w', hg, -, hstep⟩ := hfree.rootDead hfin hroot
  rw [hblocked l hg] at hstep
  cases hstep

end AerCore
