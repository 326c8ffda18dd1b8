import AerCore.Deadlock
import AerCore.Transparent

/-!
# The contract of `wait`

The callers of `OsProcess::wait` rely on four things, whatever `child.wait()`
has answered: the termination of the tree has been requested when the call
returns; both drain threads have ended, so that no chunk comes after the answer;
the answer is that of `child.wait()`; and, with capture, the pump loop ends
without any help from the processes.  The last follows from the first, since the
loop waits for the drain threads, and these for the holders of the pipes.

The Unix backend saves the result of `child.wait()` and cleans up in any case.
The Windows backend returns an error at once.

## Main definitions

* `WaitContract` — the contract, after `child.wait()` has returned.
* `Pumping` — the pump loop runs, and `wait` cleans up.

## Main results

* `leads_to_pumpEnded` — the pump loop ends when `wait` cleans up.
* `waitContract_iff` — **the contract is kept on Unix, and on Windows unless `child.wait()`
  fails.**
* `failedWait_breaks_contract` — the run on Windows whose pump loop does not end.
-/

namespace AerCore

variable {ι : Type*}

/-! ### The contract -/

/-- The termination of the tree has been requested by the call of `wait` of run `i`. -/
def KillRequested (i : ι) (ext : List (Label ι)) : Prop := ∃ x, .wait i (.killTree x) ∈ ext

/-- The status of a root that has terminated. -/
def Tree.rootStatus (t : Tree) : Option ℤ :=
  match t.root with
  | .zombie status | .reaped status => status
  | .unborn | .live => none

/-- What `child.wait()` has returned. -/
def childResult (t : Tree) : Except IoError Unit → Except IoError (Option ℤ)
  | .ok () => .ok t.rootStatus
  | .error e => .error e

/-- The run thread is in the pump loop. -/
def MainPc.inPump : MainPc → Bool
  | .pump | .inChunk => true
  | _ => false

/-- Only members of the group or of the job hold the pipes. -/
def Tree.OnlyGroupHolds (t : Tree) : Prop :=
  ∀ who p s, t.proc? who = some p → p.holds s = true → p.inGroup = true

/-- The pump loop of run `i` has ended. -/
def PumpEnded (i : ι) (w : World ι) : Prop := (w.runs i).main = .recvWait

/-- What the callers of `wait` rely on, once `child.wait()` has returned `res` and the steps
`ext` have followed. -/
structure WaitContract [DecidableEq ι] (env : Env) (cfg : ι → RunConfig) (i : ι)
    (res : Except IoError (Option ℤ)) (ext : List (Label ι)) (w : World ι) : Prop where
  /-- The call does not return before it has requested the termination of the tree. -/
  requested : (w.runs i).waiter.pc.answered = true → KillRequested i ext
  /-- Nor before both drain threads have ended. -/
  drained : (w.runs i).waiter.pc.answered = true → ∀ s, ((w.runs i).output.drain s).pc = .done
  /-- No chunk is read or sent afterwards. -/
  silent : (w.runs i).waiter.pc.answered = true → ∀ s a, step env cfg w (.drain i s a) = none
  /-- It returns the code, -1 if there is none, or the error. -/
  answer : ∀ v, (w.runs i).waiter.pc = .returned v → v = waitResult res
  /-- The pump loop ends without the processes. -/
  pumps : (cfg i).captureOutput = true → (w.runs i).main.inPump = true → env.permitted = true →
    (w.runs i).tree.OnlyGroupHolds →
    Lts.Leads (step env cfg) (fun l => l.granted = true) w (PumpEnded i)

/-! ### After `child.wait()` -/

/-- Where the call stands between the return of `child.wait()` and its end. -/
def WaitPc.After (i : ι) (res : Except IoError (Option ℤ)) (ext : List (Label ι)) :
    WaitPc → Prop
  | .killTree x => x = res
  | .joinOut x | .joinErr x => x = res ∧ KillRequested i ext
  | .returned v => v = waitResult res ∧ KillRequested i ext
  | .sent | .ended => KillRequested i ext
  | .idle | .startOut | .startErr | .childWait | .panicked => False

section Moves

variable {env : Env} {c : RunConfig} {i : ι} {hd hd' : CancelHandle ι} {r r' : Run}
  {l : Label ι} {res : Except IoError (Option ℤ)} {ext ext' : List (Label ι)}

theorem KillRequested.mono (h : KillRequested i ext) (hsub : ∀ l ∈ ext, l ∈ ext') :
    KillRequested i ext' := by
  obtain ⟨x, hx⟩ := h
  exact ⟨x, hsub _ hx⟩

theorem WaitPc.After.mono {p : WaitPc} (h : p.After i res ext) (hsub : ∀ l ∈ ext, l ∈ ext') :
    p.After i res ext' := by
  cases p with
  | killTree x => exact h
  | joinOut x | joinErr x | returned v => exact ⟨h.1, h.2.mono hsub⟩
  | sent | ended => exact KillRequested.mono h hsub
  | idle | startOut | startErr | childWait | panicked => exact h

/-- A call that has its answer has requested the kill. -/
theorem WaitPc.After.requested {p : WaitPc} (h : p.After i res ext) (hp : p.answered = true) :
    KillRequested i ext := by
  cases p with
  | returned v => exact h.2
  | sent | ended => exact h
  | _ => cases hp

theorem WaitPc.After.closing {p : WaitPc} (h : p.After i res ext) :
    p.closing = true ∨ p = .ended := by
  cases p with
  | killTree | joinOut | joinErr | returned | sent => exact .inl rfl
  | ended => exact .inr rfl
  | idle | startOut | startErr | childWait | panicked => cases h

/-- A step of `wait` goes on from where the call stands. -/
theorem WaitMove.after {capture : Bool} {t t' : Tree} {o o' : Output} {x x' : Waiter}
    {a : WaitAct} (h : WaitMove env capture t o x a t' o' x') (hx : x.pc.After i res ext) :
    x'.pc.After i res (ext ++ [.wait i a]) ∧ ∀ y, a ≠ .childWait y := by
  have hsub : ∀ l ∈ ext, l ∈ ext ++ [Label.wait i a] := fun l hl => List.mem_append_left _ hl
  cases h with
  | startOut pc | startOutFails pc | startErr pc | startErrFails pc | childWait pc
  | childWaitFails pc => rw [pc] at hx; cases hx
  | @killTree _ y _ pc =>
    rw [pc] at hx
    exact ⟨⟨hx, y, by simp⟩, by simp⟩
  | joinOut pc =>
    rw [pc] at hx
    exact ⟨⟨hx.1, hx.2.mono hsub⟩, by simp⟩
  | joinErr pc =>
    rw [pc] at hx
    exact ⟨⟨by rw [hx.1], hx.2.mono hsub⟩, by simp⟩
  | send pc =>
    rw [pc] at hx
    exact ⟨hx.2.mono hsub, by simp⟩
  | exit pc =>
    rw [pc] at hx
    exact ⟨KillRequested.mono hx hsub, by simp⟩

theorem after_move [DecidableEq ι] (h : RunMove env c i hd r l r') (ha : Answered env r)
    (hx : r.waiter.pc.After i res ext) :
    r'.waiter.pc.After i res (ext ++ [l]) ∧ ∀ y, l ≠ .wait i (.childWait y) := by
  have hkeep : r.waiter.pc.After i res (ext ++ [l]) :=
    hx.mono fun l hl => List.mem_append_left _ hl
  cases h with
  | main h =>
    refine ⟨?_, by simp⟩
    rcases h.waiter with hw | ⟨hb, -, -⟩ | hw
    · rw [hw]; exact hkeep
    · rw [ha.before hb] at hx; cases hx
    · rw [hw]; exact hkeep
  | monitor h => exact ⟨by rw [h.waiter_eq]; exact hkeep, by simp⟩
  | wait h =>
    obtain ⟨hafter, hne⟩ := h.after hx
    exact ⟨hafter, fun y hy => hne y (by simpa using hy)⟩
  | drain | proc | cancelKill => exact ⟨hkeep, by simp⟩
  | other hl => exact ⟨hkeep, fun y hy => by rw [hy] at hl; simp [Label.touches] at hl⟩

end Moves

/-! ### The pump loop -/

/-- The pump loop runs, and `wait` cleans up. -/
structure Pumping (c : RunConfig) (r : Run) : Prop where
  /-- The run thread is in the loop. -/
  main : r.main.inPump = true
  /-- `child.wait()` has returned, and `wait` goes on. -/
  wait : r.waiter.pc.closing = true ∨ r.waiter.pc = .ended
  /-- A process that holds a pipe can be killed. -/
  only : r.tree.OnlyGroupHolds
  /-- The drain threads stand as `wait` has left them. -/
  drained : r.waiter.pc.Drained r.output
  /-- The threads stand to each other as they should. -/
  standing : Standing c r

section Pump

variable {env : Env} {c : RunConfig} {i : ι} {hd hd' : CancelHandle ι} {r r' : Run}
  {l : Label ι} {t t' : Tree}

theorem Tree.OnlyGroupHolds.forced (h : t.OnlyGroupHolds) (hmove : ForcedMove t t') :
    t'.OnlyGroupHolds := by
  intro who p s hp hholds
  obtain ⟨who', hp'⟩ := hmove.exists_proc? hp
  exact h who' p s hp' hholds

/-- When nothing runs in the group, nobody holds a pipe. -/
theorem Tree.OnlyGroupHolds.not_held (h : t.OnlyGroupHolds) (hl : t.groupLive = false)
    (s : Stream) : t.held s = false := by
  rw [Bool.eq_false_iff]
  intro hheld
  obtain ⟨who, p, hp, hholds⟩ := Tree.held_iff.mp hheld
  rw [Tree.groupLive_iff.mpr ⟨who, p, hp, h who p s hp hholds⟩] at hl
  cases hl

/-- The loop goes on until it ends. -/
theorem MainEdge.inPump {m m' : MainPc} {a : MainAct} (h : MainEdge env c m a m')
    (hm : m.inPump = true) (hg : a.granted = true) : m'.inPump = true ∨ m' = .recvWait := by
  cases h with
  | recv | chunkReturns => exact .inl rfl
  | recvClosed => exact .inr rfl
  | chunkPanics => cases hg
  | _ => cases hm

theorem WaitMove.closing {capture : Bool} {o o' : Output} {x x' : Waiter} {a : WaitAct}
    (h : WaitMove env capture t o x a t' o' x') (hx : x.pc.closing = true ∨ x.pc = .ended) :
    x'.pc.closing = true ∨ x'.pc = .ended := by
  cases h with
  | killTree | joinOut | joinErr | send => exact .inl rfl
  | exit => exact .inr rfl
  | startOut pc | startOutFails pc | startErr pc | startErrFails pc | childWait pc
  | childWaitFails pc => rw [pc] at hx; rcases hx with hx | hx <;> cases hx

/-- A granted step keeps the loop running, or ends it. -/
theorem pumping_move [DecidableEq ι] (h : RunMove env c i hd r l r') (hg : l.granted = true)
    (ha : Answered env r) (hmsg : r.waiter.Sent) (hp : Pumping c r) :
    Pumping c r' ∨ r'.main = .recvWait := by
  have hspawn : ∀ a, l ≠ .main i (.spawn a) := by
    rintro a rfl
    have hm := hp.main
    generalize hr' : r' = r₁ at h
    cases h with
    | main h =>
      obtain ⟨s, hs⟩ := h.edge.spawning
      rw [hs] at hm
      cases hm
    | other hl => simp [Label.touches] at hl
  have hforced := h.forced hspawn (not_proc_of_granted hg)
  have horderly : env.platform = .unix ∨ ∀ e, l ≠ .wait i (.childWait (.error e)) := by
    refine .inr fun e he => ?_
    rw [he] at hg
    cases hg
  have hmain : r'.main.inPump = true ∨ r'.main = .recvWait := by
    cases h with
    | main h => exact h.edge.inPump hp.main hg
    | monitor h => exact .inl (h.main_eq ▸ hp.main)
    | wait | drain | proc | cancelKill | other => exact .inl hp.main
  refine hmain.imp (fun hmain => ⟨hmain, ?_, hp.only.forced hforced, ?_, ?_⟩) id
  · cases h with
    | main h =>
      rcases h.waiter with hw | ⟨hb, -, -⟩ | hw
      · rw [hw]; exact hp.wait
      · have hwait := hp.wait
        rw [ha.before hb] at hwait
        rcases hwait with hx | hx <;> cases hx
      · rw [hw]; exact hp.wait
    | monitor h => rw [h.waiter_eq]; exact hp.wait
    | wait h => exact h.closing hp.wait
    | drain | proc | cancelKill | other => exact hp.wait
  · exact drained_move h horderly ha hp.drained
  · exact standing_move h hp.drained ha hmsg hp.standing

/-- The loop waits for nothing but the threads of the run: the kill has left no holder of a
pipe to the drain threads that are joined. -/
theorem Pumping.advances (hp : Pumping c r) (hcap : c.captureOutput = true)
    (hq : r.waiter.pc.joins = true → r.tree.groupLive = false) : Advances env c i hd r := by
  have hm := hp.main
  cases hpc : r.main with
  | inChunk =>
    refine .main rfl (.chunkReturns hpc) ?_
    exact rank_lt_of_main (by simp [hpc, MainPc.rank]) rfl rfl rfl
  | pump =>
    rcases pump_advances_or_tx hp.standing hpc with hadv | ⟨s, htx⟩
    · exact hadv
    have hdone := (hp.standing.senders s htx).1
    rcases hp.wait with hclosing | hended
    · rcases closing_advances hp.drained hclosing fun _ _ => hcap with hadv | ⟨s, hjoins, hst⟩
      · exact hadv
      · have hj : r.waiter.pc.joins = true := by
          obtain ⟨res, hpc | hpc⟩ := hjoins <;> rw [hpc] <;> rfl
        have hheld := hp.only.not_held (hq hj) s
        rw [hst.2.2] at hheld
        cases hheld
    · have hd := hp.drained
      rw [hended] at hd
      cases s
      · exact absurd hd.1 hdone
      · exact absurd hd.2 hdone
  | _ => rw [hpc] at hm; cases hm

end Pump

/-! ### Whole runs -/

section Runs

variable [DecidableEq ι] {env : Env} {cfg : ι → RunConfig} {tr : List (Label ι)} {w w₁ : World ι}
  {i : ι} {x : Except IoError Unit}

theorem pumping_step {l : Label ι} {w' : World ι} (h : Reaches env cfg tr w)
    (hstep : step env cfg w l = some w') (hg : l.granted = true)
    (hp : Pumping (cfg i) (w.runs i)) : Pumping (cfg i) (w'.runs i) ∨ PumpEnded i w' :=
  pumping_move (runMove_of_step hstep i) hg (answered_of_reaches h i) (sent_of_reaches h i) hp

/-- **The pump loop ends when `wait` cleans up**, if the kill is not refused. -/
theorem leads_to_pumpEnded (h : Reaches env cfg tr w) (hcap : (cfg i).captureOutput = true)
    (hpermitted : env.permitted = true) (hp : Pumping (cfg i) (w.runs i)) :
    Lts.Leads (step env cfg) (fun l => l.granted = true) w (PumpEnded i) := by
  -- a call of `cancel()` that the callback has made comes to its end first
  have hsettle := callers_settle (Q := fun w => Pumping (cfg i) (w.runs i)) h hp
    fun tr w q a w' hw hp hg hstep => (pumping_step hw hstep hg hp).resolve_right fun hend => by
      have hmain := (mainMove_or_stays hstep i).resolve_left fun ⟨a, ha, _⟩ => by cases ha
      have hin := hp.main
      rw [← hmain.2, hend] at hin
      cases hin
  refine (hsettle.imp (fun _ hl => hl.1) fun _ hw => hw).bind fun w₁ hw₁ => ?_
  refine Lts.leads_of_measure (fun w => (w.runs i).rank)
    (I := fun w => (∃ tr, Reaches env cfg tr w) ∧ (∀ q, w.callers q = .idle) ∧
      (Pumping (cfg i) (w.runs i) ∨ PumpEnded i w)) ?_ ⟨hw₁.1, hw₁.2.1, .inl hw₁.2.2⟩
  rintro w ⟨⟨tr, h⟩, hidle, hp | hend⟩
  · have hadv : Advances env (cfg i) i w.handle (w.runs i) :=
      hp.advances hcap fun hj => quiet_of_joins h hj hpermitted
    obtain ⟨l, w', hg, -, hstep, hcallers, -, hlt⟩ := hadv.step fun _ => hidle (.callback i)
    refine .inr ⟨l, w', hg, hstep, ⟨⟨_, Lts.exec_concat_eq_some.mpr ⟨w, h, hstep⟩⟩, ?_,
      pumping_step h hstep hg hp⟩, hlt⟩
    rw [hcallers]
    exact hidle
  · exact .inl hend

/-- Before `child.wait()` returns, it has not returned. -/
theorem not_childWait_of_beforeReap (h : Reaches env cfg tr w)
    (hpc : (w.runs i).waiter.pc.beforeReap = true) (x : Except IoError Unit) :
    .wait i (.childWait x) ∉ tr := by
  refine Lts.exec_invariant (P := fun tr w => (w.runs i).waiter.pc.beforeReap = true →
    .wait i (.childWait x) ∉ tr) (fun _ => by simp) ?_ h hpc
  intro tr w l w' hw ih hstep hpc hmem
  have hmove := runMove_of_step hstep i
  generalize w'.runs i = r' at hmove hpc
  -- the step was not `child.wait()` itself, and `wait` was before it already
  have hbefore : (w.runs i).waiter.pc.beforeReap = true ∧ l ≠ .wait i (.childWait x) := by
    cases hmove with
    | main h =>
      refine ⟨?_, by simp⟩
      rcases h.waiter with hx | ⟨hb, -, -⟩ | hx
      · rw [← hx]; exact hpc
      · rw [(answered_of_reaches hw i).before hb]; rfl
      · rw [hx] at hpc; exact hpc
    | monitor h => exact ⟨h.waiter_eq ▸ hpc, by simp⟩
    | wait h =>
      cases h with
      | startOut pc | startErr pc => exact ⟨by rw [pc]; rfl, by simp⟩
      | childWait | childWaitFails =>
        cases hp : env.platform <;> simp [WaitPc.afterChildWait, WaitPc.beforeReap, hp] at hpc
      | _ => cases hpc
    | drain | proc | cancelKill => exact ⟨hpc, by simp⟩
    | other hl => exact ⟨hpc, fun hy => by rw [hy] at hl; simp [Label.touches] at hl⟩
  rcases List.mem_append.mp hmem with hmem | hmem
  · exact ih hbefore.1 hmem
  · exact hbefore.2 (List.mem_singleton.mp hmem).symm

/-- `child.wait()` returns to a call of `wait` that was in it. -/
theorem childWait_step (hstep : step env cfg w (.wait i (.childWait x)) = some w₁) :
    (w.runs i).waiter.pc = .childWait ∧ (w₁.runs i).waiter.pc =
      WaitPc.afterChildWait env.platform (childResult (w₁.runs i).tree x) := by
  have hmove := runMove_of_step hstep i
  generalize w₁.runs i = r₁ at hmove ⊢
  cases hmove with
  | wait h =>
    cases h with
    | childWait pc => exact ⟨pc, rfl⟩
    | childWaitFails pc => exact ⟨pc, rfl⟩
  | other hl => simp [Label.touches] at hl

/-- From the return of `child.wait()` on, the call goes through its cleaning up. -/
theorem after_of_exec (h : Reaches env cfg tr w)
    (hstep : step env cfg w (.wait i (.childWait x)) = some w₁)
    (hx : env.platform = .unix ∨ x.isOk = true) {ext : List (Label ι)} {w' : World ι}
    (hext : Lts.exec (step env cfg) w₁ ext = some w') :
    (w'.runs i).waiter.pc.After i (childResult (w₁.runs i).tree x) ext ∧
      ∀ y, .wait i (.childWait y) ∉ ext := by
  have hw₁ : Reaches env cfg (tr ++ [.wait i (.childWait x)]) w₁ :=
    Lts.exec_concat_eq_some.mpr ⟨w, h, hstep⟩
  refine Lts.exec_invariant (P := fun ext w' =>
    (w'.runs i).waiter.pc.After i (childResult (w₁.runs i).tree x) ext ∧
      ∀ y, .wait i (.childWait y) ∉ ext) ⟨?_, by simp⟩ ?_ hext
  · rw [(childWait_step hstep).2]
    rcases hx with hu | hok
    · rw [hu]
      exact rfl
    · cases x with
      | ok => cases env.platform <;> exact rfl
      | error e => cases hok
  · intro ext w l w' hw ih hl
    have hreach := Lts.exec_append_eq_some.mpr ⟨w₁, hw₁, hw⟩
    obtain ⟨hafter, hne⟩ := after_move (runMove_of_step hl i) (answered_of_reaches hreach i) ih.1
    refine ⟨hafter, fun y hy => ?_⟩
    rcases List.mem_append.mp hy with hy | hy
    · exact ih.2 y hy
    · exact hne y (List.mem_singleton.mp hy).symm

/-- `wait` that cleans up keeps its contract. -/
theorem waitContract_of_exec (h : Reaches env cfg tr w)
    (hstep : step env cfg w (.wait i (.childWait x)) = some w₁)
    (hx : env.platform = .unix ∨ x.isOk = true) {ext : List (Label ι)} {w' : World ι}
    (hext : Lts.exec (step env cfg) w₁ ext = some w') :
    WaitContract env cfg i (childResult (w₁.runs i).tree x) ext w' := by
  obtain ⟨hafter, hnone⟩ := after_of_exec h hstep hx hext
  have hreach : Reaches env cfg (tr ++ .wait i (.childWait x) :: ext) w' :=
    Lts.exec_append_eq_some.mpr ⟨w, h, Lts.exec_of_step hstep hext⟩
  have horderly : Orderly env i (tr ++ .wait i (.childWait x) :: ext) := by
    refine hx.imp id fun hok e he => ?_
    rcases List.mem_append.mp he with he | he
    · refine not_childWait_of_beforeReap h ?_ _ he
      rw [(childWait_step hstep).1]
      rfl
    · rcases List.mem_cons.mp he with he | he
      · obtain rfl : x = .error e := by simpa using he.symm
        cases hok
      · exact hnone _ he
  have hdrained := drained_of_orderly hreach horderly
  have hdone : (w'.runs i).waiter.pc.answered = true →
      ∀ s, ((w'.runs i).output.drain s).pc = .done := by
    intro hans s
    cases hpc : (w'.runs i).waiter.pc with
    | returned v | sent | ended =>
      rw [hpc] at hdrained
      cases s
      · exact hdrained.1
      · exact hdrained.2
    | _ => rw [hpc] at hans; cases hans
  refine ⟨hafter.requested, hdone, fun hans s a => ?_, fun v hv => ?_, fun hcap hm hp honly => ?_⟩
  · rw [Option.eq_none_iff_forall_ne_some]
    intro w'' hstep
    have hmove := runMove_of_step hstep i
    generalize w''.runs i = r'' at hmove
    cases hmove with
    | drain h => exact h.pc_ne_done (hdone hans s)
    | other hl => simp [Label.touches] at hl
  · rw [hv] at hafter
    exact hafter.1
  · exact leads_to_pumpEnded hreach hcap hp
      ⟨hm, hafter.closing, honly, hdrained, standing_of_orderly hreach horderly⟩

/-- **The contract of `wait` is kept on Unix, and on Windows unless `child.wait()` fails.** -/
theorem waitContract_iff (h : Reaches env cfg tr w)
    (hstep : step env cfg w (.wait i (.childWait x)) = some w₁) :
    (∀ ext w', Lts.exec (step env cfg) w₁ ext = some w' →
        WaitContract env cfg i (childResult (w₁.runs i).tree x) ext w') ↔
      env.platform = .unix ∨ x.isOk = true := by
  constructor
  · intro hall
    by_contra hx
    -- the Windows backend has returned already
    obtain ⟨hp, hx⟩ := not_or.mp hx
    have hpc := (childWait_step hstep).2
    have hwin : env.platform = .windows := by
      cases hp' : env.platform with
      | unix => exact absurd hp' hp
      | windows => rfl
    cases x with
    | ok => exact hx rfl
    | error e =>
      rw [hwin] at hpc
      obtain ⟨y, hy⟩ := (hall [] w₁ rfl).requested (by rw [hpc]; rfl)
      cases hy
  · exact fun hx ext w' hext => waitContract_of_exec h hstep hx hext

end Runs

/-! ### The failed wait -/

/-- With capture, the run thread pumps and `wait` is in `child.wait()`, on Windows. -/
def pumpingRun : List (Label Unit) :=
  [.main () (.spawn (.createJob (.ok ()))), .main () (.spawn (.setInfo (.ok ()))),
    .main () (.spawn (.command (.ok 7))), .main () (.spawn (.assign (.ok ()))),
    .main () .started, .main () .startedReturns, .main () (.startMonitor true),
    .main () .openChannel, .main () .dropTx, .main () (.startWait true),
    .wait () (.startOut true), .wait () (.startErr true)]

/-- On Windows `child.wait()` returns the code of a root that has exited and has left a
descendant behind, which runs in the job and holds both pipes: the contract is kept. -/
theorem waitContract_of_survivor :
    ∃ w w₁, Reaches Env.win32 (fun _ => ⟨none, true, false⟩)
        (pumpingRun ++ [.proc () (.fork .root), .proc () (.rootExit (some 3))]) w ∧
      step Env.win32 (fun _ => ⟨none, true, false⟩) w (.wait () (.childWait (.ok ()))) = some w₁ ∧
      (w₁.runs ()).tree.groupLive = true ∧ (w₁.runs ()).tree.held .stdout = true ∧
      (w₁.runs ()).tree.held .stderr = true ∧
      ∀ ext w', Lts.exec (step Env.win32 fun _ => ⟨none, true, false⟩) w₁ ext = some w' →
        WaitContract Env.win32 (fun _ => ⟨none, true, false⟩) ()
          (childResult (w₁.runs ()).tree (.ok ())) ext w' := by
  obtain ⟨w₁, hw₁, hlive, hout, herr⟩ : ∃ w₁, Reaches Env.win32 (fun _ => ⟨none, true, false⟩)
      (pumpingRun ++ [.proc () (.fork .root), .proc () (.rootExit (some 3))] ++
        [.wait () (.childWait (.ok ()))]) w₁ ∧
      (w₁.runs ()).tree.groupLive = true ∧ (w₁.runs ()).tree.held .stdout = true ∧
        (w₁.runs ()).tree.held .stderr = true :=
    Lts.exists_exec_of_any (by decide +kernel)
  obtain ⟨w, hw, hstep⟩ := Lts.exec_concat_eq_some.mp hw₁
  exact ⟨w, w₁, hw, hstep, hlive, hout, herr, (waitContract_iff hw hstep).mpr (.inr rfl)⟩

section Stalled

variable [DecidableEq ι] {env : Env} {cfg : ι → RunConfig} {tr : List (Label ι)} {w : World ι}
  {i : ι}

/-- Without a step of `cancel()`, nobody is in it. -/
theorem idle_of_stands (h : Reaches env cfg tr w) (hs : ∀ l ∈ tr, l.stands = true)
    (q : CallerId ι) : w.callers q = .idle := by
  refine Lts.exec_invariant (P := fun tr w => (∀ l ∈ tr, l.stands = true) →
    w.callers q = .idle) (fun _ => rfl) ?_ h hs
  intro tr w l w' hw ih hstep hs
  have hidle := ih fun l hl => hs l (by simp [hl])
  cases handleMove_of_step hstep with
  | inner _ _ hc => rw [hc]; exact hidle
  | main => exact hidle
  | @cancel k a _ _ =>
    have hstands := hs (.cancel k a) (by simp)
    cases hstands

/-- A pump loop that has stalled does not end without the processes. -/
theorem not_leads_to_pumpEnded (h : Reaches env cfg tr w)
    (hs : Lts.Along (step env cfg) (Smooth i) (World.init ι env) tr)
    (hwin : env.platform = .windows) (hc : cfg i = ⟨none, true, false⟩)
    (hstands : ∀ l ∈ tr, l.stands = true) :
    ¬Lts.Leads (step env cfg) (fun l => l.granted = true) w (PumpEnded i) := by
  refine Lts.not_leads_of_invariant
    (I := fun w => ∃ tr, Reaches env cfg tr w ∧
      Lts.Along (step env cfg) (Smooth i) (World.init ι env) tr ∧ ∀ l ∈ tr, l.stands = true)
    ?_ ?_ ⟨tr, h, hs, hstands⟩
  · rintro w l w' ⟨tr, h, hs, hstands⟩ hg hstep
    have hl : Smooth i w l ∧ l.stands = true := by
      cases l with
      | proc => cases hg
      | cancel q a =>
        -- nobody is in `cancel()`, and nobody begins
        have hidle := idle_of_stands h hstands q
        have hmove := cancelMove_of_step hstep
        cases hmove with
        | swapFirst | swapAgain => cases hg
        | lockEmpty pc | lockWired pc | probeMore pc | probeAlive pc | probeDead pc | fire pc
        | killMore pc | killDone pc | unlock pc => rw [hidle] at pc; cases pc
      | main j a =>
        refine ⟨fun _ => ⟨?_, ?_⟩, rfl⟩
        · rintro rfl
          cases hg
        · rintro rfl
          cases hg
      | wait j a =>
        refine ⟨fun _ => ⟨?_, ?_⟩, rfl⟩
        · rintro rfl
          cases hg
        · rintro rfl
          cases hg
      | monitor j a => exact ⟨trivial, rfl⟩
      | drain j s a =>
        refine ⟨fun _ ha => ?_, ?_⟩
        · rw [ha] at hg
          cases hg
        · cases a with
          | send => rfl
          | read x =>
            cases x with
            | error e => cases hg
            | bytes | eof | interrupted => rfl
    refine ⟨tr ++ [l], Lts.exec_concat_eq_some.mpr ⟨w, h, hstep⟩, (Lts.along_append h).mpr
      ⟨hs, hl.1, fun _ _ => trivial⟩, fun l' hl' => ?_⟩
    rcases List.mem_append.mp hl' with hl' | hl'
    · exact hstands l' hl'
    · exact (List.mem_singleton.mp hl') ▸ hl.2
  · rintro w ⟨tr, h, hs, hstands⟩ hend
    have hplace := (stalled_of_reaches h hs hwin hc hstands).place
    rw [hend] at hplace
    cases hplace

end Stalled

/-- On Windows `child.wait()` fails while the root runs and holds the pipes: `wait` returns
with its drain threads at work, no termination has been requested, and the pump loop does not
end without the root. -/
theorem failedWait_breaks_contract :
    ∃ w₁, Reaches Env.win32 (fun _ => ⟨none, true, false⟩)
        (pumpingRun ++ [.wait () (.childWait (.error (.os 6)))]) w₁ ∧
      (w₁.runs ()).waiter.pc = .returned (.error (.waitFailed (.os 6))) ∧
      (∀ s, ((w₁.runs ()).output.drain s).pc = .reading) ∧
      (w₁.runs ()).main = .pump ∧ (w₁.runs ()).tree.OnlyGroupHolds ∧
      ¬Lts.Leads (step Env.win32 fun _ => ⟨none, true, false⟩) (fun l => l.granted = true) w₁
        (PumpEnded ()) ∧
      ¬WaitContract Env.win32 (fun _ => ⟨none, true, false⟩) () (.error (.os 6)) [] w₁ := by
  obtain ⟨w₁, hw₁, hpc, hout, herr, hmain, htree⟩ : ∃ w₁,
      Reaches Env.win32 (fun _ => ⟨none, true, false⟩)
        (pumpingRun ++ [.wait () (.childWait (.error (.os 6)))]) w₁ ∧
      (w₁.runs ()).waiter.pc = .returned (.error (.waitFailed (.os 6))) ∧
      (w₁.runs ()).output.stdout.pc = .reading ∧ (w₁.runs ()).output.stderr.pc = .reading ∧
      (w₁.runs ()).main = .pump ∧ (w₁.runs ()).tree = Tree.spawned true :=
    Lts.exists_exec_of_any (by decide +kernel)
  refine ⟨w₁, hw₁, hpc, fun s => ?_, hmain, fun who p s hp _ => ?_, ?_, fun hcontract => ?_⟩
  · cases s
    · exact hout
    · exact herr
  · rw [htree] at hp
    cases who with
    | root => cases hp; rfl
    | kid n => cases hp
  · refine not_leads_to_pumpEnded hw₁ (Lts.along_of_forall_mem ?_) rfl rfl ?_
    · simp [pumpingRun, Smooth]
    · intro l
      simp only [pumpingRun]
      revert l
      decide
  · obtain ⟨x, hx⟩ := hcontract.requested (by rw [hpc]; rfl)
    cases hx

end AerCore
