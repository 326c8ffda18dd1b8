import AerCore.Orphan
import AerCore.Progress

/-!
# After the deadline

The timeout monitor ends when nothing runs in the process group any more.  Whether the run
can end depends on something else: the drain threads read until every holder of a write end
has closed it or died, and a descendant that has left the group is a holder no kill reaches.

## Main definitions

* `DeadlineHandled` — the monitor has passed its deadline and finished its work.
* `Run.needs` — the run still has to wait for the drain thread of a stream.

## Main results

* `groupLive_of_deadlineHandled` — nothing runs in the group then.
* `leads_to_end`, `not_leads_to_end` — the run can end unless a pipe it needs is held, and
  cannot if one is.
* `timeout_ends_run_iff_no_pipe_is_held` — **exactly when a timeout ends the run**.
* `escapedHolder_outlives_timeout` — a descendant outside the group keeps the run.
-/

namespace AerCore

variable {ι : Type*}

/-! ### The monitor's work -/

/-- The monitor of run `i` has handled its deadline: it has passed it and ended, and no
signal of its kill was refused. -/
def DeadlineHandled (i : ι) (tr : List (Label ι)) (w : World ι) : Prop :=
  .monitor i .deadline ∈ tr ∧ (w.runs i).monitor = .done ∧
    ∀ a, .monitor i (.kill a) ∈ tr → a.refused = false

/-- What the monitor knows of the tree once its deadline has passed. -/
def MonitorPc.Certain (t : Tree) : MonitorPc → Prop
  | .idle | .recv => False
  | .probe .pid => t.groupExists = false
  | .probe _ | .store => True
  | .kill k => k.Certain t
  | .done => t.groupLive = false

/-- The monitor has not been started. -/
def MainPc.beforeMonitor : MainPc → Bool
  | .spawn _ | .toRunning _ | .inStarted | .wire | .loadCancelled | .loadFired | .probe _ | .fire
  | .kill _ | .startMonitor => true
  | _ => false

section Moves

variable {env : Env} {c : RunConfig} {i : ι} {hd hd' : CancelHandle ι} {r r' : Run}
  {l : Label ι} {t t' : Tree}

theorem MonitorPc.Certain.mono {m : MonitorPc} (h : TreeMove env t t') (hm : m.Certain t) :
    m.Certain t' := by
  cases m with
  | idle | recv => exact hm
  | probe p =>
    cases p with
    | pid => exact h.groupExists hm
    | group | query => trivial
  | store => trivial
  | kill k => exact KillPc.Certain.mono h hm
  | done => exact h.live.groupLive hm

/-- The monitor goes on from what it knows. -/
theorem MonitorMove.certain {a : MonitorAct} (h : MonitorMove env r a r')
    (hr : ∀ b, a = .kill b → b.refused = false)
    (hm : a = .deadline ∨ r.monitor.Certain r.tree) : r'.monitor.Certain r'.tree := by
  cases h with
  | deadline => cases env.platform <;> trivial
  | message pc | disconnected pc =>
    rw [pc] at hm
    rcases hm with hm | hm <;> cases hm
  | probeMore _ h =>
    obtain ⟨-, rfl, -, he⟩ := treeAliveStep_eq_more h
    exact he
  | probeAlive => trivial
  | @probeDead p x pc h =>
    -- the group did not exist when it was probed
    rw [pc] at hm
    have hp := hm.resolve_left (by simp)
    obtain rfl : x = .absent := by simpa using treeAliveStep_eq_answer h
    cases p with
    | group => simp [treeAliveStep] at h
    | pid => exact groupLive_of_not_exists hp
    | query =>
      change r.tree.groupLive = false
      simpa [treeAliveStep, Reply.fits] using h
  | store => cases env.platform <;> trivial
  | killMore pc h =>
    rw [pc] at hm
    exact ((killMove_of_step h).certain (hr _ rfl) (hm.resolve_left (by simp))).1
  | killDone pc h =>
    rw [pc] at hm
    exact ((killMove_of_step h).certain (hr _ rfl) (hm.resolve_left (by simp))).2 _ rfl

theorem MainEdge.beforeMonitor {m m' : MainPc} {a : MainAct} (h : MainEdge env c m a m')
    (hm : m'.beforeMonitor = true) : m.beforeMonitor = true := by
  cases h <;> first | rfl | cases hm

/-- The run thread starts the monitor, and otherwise leaves it alone. -/
theorem MainMove.monitor {a : MainAct} (h : MainMove env c i hd r a hd' r') :
    r'.monitor = r.monitor ∨ r.main = .startMonitor := by
  cases h with
  | startMonitor pc => exact .inr pc
  | @joinWait res | @waitReturned res => cases res <;> exact .inl rfl
  | _ => exact .inl rfl

theorem RunMove.monitor_eq [DecidableEq ι] (h : RunMove env c i hd r l r')
    (hl : ∀ a, l ≠ .monitor i a) (hm : r.main.beforeMonitor = false) :
    r'.monitor = r.monitor := by
  cases h with
  | main h =>
    refine h.monitor.resolve_right fun pc => ?_
    rw [pc] at hm
    cases hm
  | monitor => exact absurd rfl (hl _)
  | wait | drain | proc | cancelKill | other => rfl

end Moves

section Runs

variable [DecidableEq ι] {env : Env} {cfg : ι → RunConfig} {tr : List (Label ι)} {w : World ι}
  {i : ι}

theorem monitor_idle_of_before (h : Reaches env cfg tr w)
    (hm : (w.runs i).main.beforeMonitor = true) : (w.runs i).monitor = .idle := by
  refine Lts.exec_invariant (P := fun _ w => (w.runs i).main.beforeMonitor = true →
    (w.runs i).monitor = .idle) ?_ ?_ h hm
  · exact fun _ => rfl
  · intro _ w l w' hw ih hstep hm
    generalize hr' : w'.runs i = r' at hm
    have hmove := runMove_of_step hstep i
    rw [hr'] at hmove
    cases hmove with
    | main h =>
      have hbefore := ih (h.edge.beforeMonitor hm)
      cases h with
      | startMonitor => simp only [RunConfig.afterMonitor] at hm; split at hm <;> cases hm
      | @joinWait res | @waitReturned res => cases res <;> exact hbefore
      | _ => exact hbefore
    | monitor h => exact absurd (ih (h.main_eq ▸ hm)) h.monitor_ne_idle
    | wait | drain | proc | cancelKill | other => exact ih hm

/-- Past its deadline the monitor is certain of what it has seen. -/
theorem certain_of_deadline (h : Reaches env cfg tr w) (hd : .monitor i .deadline ∈ tr)
    (hr : ∀ a, .monitor i (.kill a) ∈ tr → a.refused = false) :
    (w.runs i).monitor.Certain (w.runs i).tree := by
  refine Lts.exec_invariant (P := fun tr w => .monitor i .deadline ∈ tr →
    (∀ a, .monitor i (.kill a) ∈ tr → a.refused = false) →
    (w.runs i).monitor.Certain (w.runs i).tree) ?_ ?_ h hd hr
  · intro hd
    cases hd
  · intro tr w l w' hw ih hstep hd hr
    have hr₀ : ∀ a, .monitor i (.kill a) ∈ tr → a.refused = false := fun a ha =>
      hr a (List.mem_append_left _ ha)
    have hmove := runMove_of_step hstep i
    by_cases hmon : ∃ a, l = .monitor i a
    · obtain ⟨a, rfl⟩ := hmon
      generalize w'.runs i = r' at hmove ⊢
      cases hmove with
      | monitor h =>
        refine h.certain (fun b hb => hr b (by simp [hb])) ?_
        rcases List.mem_append.mp hd with hd | hd
        · exact .inr (ih hd hr₀)
        · simp only [List.mem_singleton, Label.monitor.injEq, true_and] at hd
          exact .inl hd.symm
      | other hl => simp [Label.touches] at hl
    · have hd₀ : .monitor i .deadline ∈ tr := by
        rcases List.mem_append.mp hd with hd | hd
        · exact hd
        · exact absurd ⟨_, (List.mem_singleton.mp hd).symm⟩ hmon
      have hcert := ih hd₀ hr₀
      -- the deadline passes after the monitor is started
      have hlate : (w.runs i).main.beforeMonitor = false := by
        by_contra hb
        rw [monitor_idle_of_before hw (by simpa using hb)] at hcert
        exact hcert
      have htree : TreeMove env (w.runs i).tree (w'.runs i).tree := hmove.tree fun b hb => by
        subst hb
        rcases mainMove_or_stays hstep i with ⟨a, ha, h⟩ | ⟨hne, -⟩
        · cases ha
          obtain ⟨s, hs⟩ := h.edge.spawning
          rw [hs] at hlate
          cases hlate
        · exact hne _ rfl
      rw [hmove.monitor_eq (fun a ha => hmon ⟨a, ha⟩) hlate]
      exact hcert.mono htree

/-- **After the deadline has been handled nothing runs in the group.** -/
theorem groupLive_of_deadlineHandled (h : Reaches env cfg tr w) (hd : DeadlineHandled i tr w) :
    (w.runs i).tree.groupLive = false := by
  have hcert := certain_of_deadline h hd.1 hd.2.2
  rw [hd.2.1] at hcert
  exact hcert

end Runs

/-! ### Who waits for the drain threads -/

/-- The run thread is on its way into `wait`, or waits for its answer. -/
def MainPc.waits (m : MainPc) : Bool := m.beforeWait || m.awaits

/-- The run still has to wait for the drain thread of `s`: it has not ended, and is joined by
`wait` or has a sender the run thread waits for. -/
def Run.needs (c : RunConfig) (r : Run) (s : Stream) : Bool :=
  r.main.waits &&
    match (r.output.drain s).pc with
    | .done => false
    | .idle => decide (r.waiter.pc ≠ .panicked)
    | .reading | .sending _ => c.captureOutput || decide (r.waiter.pc ≠ .panicked)

section Needs

variable {env : Env} {c : RunConfig} {i : ι} {hd hd' : CancelHandle ι} {r r' : Run}
  {l : Label ι} {t t' : Tree} {s : Stream}

theorem Run.needs_iff : r.needs c s = true ↔ r.main.waits = true ∧ (r.output.drain s).pc ≠ .done ∧
    (r.waiter.pc = .panicked → c.captureOutput = true ∧ (r.output.drain s).pc ≠ .idle) := by
  unfold Run.needs
  cases r.main.waits <;> cases (r.output.drain s).pc <;> simp [imp_iff_or_not]

theorem MainPc.underway_of_waits {m : MainPc} (hm : m.waits = true) (hb : m.beforeMonitor = false) :
    m.underway = true := by
  have hmb : (m.waits && !m.beforeMonitor) = true := by rw [hm, hb]; rfl
  cases m <;> first | rfl | cases hmb

theorem MainEdge.waits {m m' : MainPc} {a : MainAct} (h : MainEdge env c m a m')
    (hm : m'.waits = true) : m.waits = true := by
  cases h <;> first | rfl | cases hm

/-- What a run needs, it needed before. -/
theorem RunMove.needs [DecidableEq ι] (h : RunMove env c i hd r l r') (ha : Answered env r)
    (hw : r.waiter.pc.Drained r.output) (hn : r'.needs c s = true) : r.needs c s = true := by
  obtain ⟨hm, hdone, hpan⟩ := Run.needs_iff.mp hn
  obtain ⟨hdone', -, hidle'⟩ := h.drains hw s
  refine Run.needs_iff.mpr ⟨?_, fun hx => hdone (hdone' hx), fun hp => ?_⟩
  · cases h with
    | main h => exact h.edge.waits hm
    | monitor h => exact h.main_eq ▸ hm
    | wait | drain | proc | cancelKill | other => exact hm
  · obtain ⟨hcap, hidle⟩ := hpan (h.panicked ha hp)
    exact ⟨hcap, fun hx => hidle (hidle' hp hx)⟩

/-- A stream is held exactly when a live process has its write end. -/
theorem Tree.held_iff : t.held s = true ↔ ∃ who p, t.proc? who = some p ∧ p.holds s = true := by
  simp only [Tree.held, Bool.or_eq_true, Bool.and_eq_true, Tree.rootLive_iff, List.any_eq_true]
  constructor
  · rintro (⟨hlive, hh⟩ | ⟨p, hp, hh⟩)
    · exact ⟨.root, t.leader, Tree.proc?_root_eq_some.mpr ⟨hlive, rfl⟩, hh⟩
    · obtain ⟨n, hn⟩ := Tree.exists_proc?_of_mem hp
      exact ⟨.kid n, p, hn, hh⟩
  · rintro ⟨who, p, hp, hh⟩
    cases who with
    | root =>
      obtain ⟨hlive, rfl⟩ := Tree.proc?_root_eq_some.mp hp
      exact .inl ⟨hlive, hh⟩
    | kid n => exact .inr ⟨p, Tree.proc?_kid_mem hp, hh⟩

theorem ForcedMove.leader_eq (h : ForcedMove t t') : t'.leader = t.leader := by
  cases h with
  | killRoot status => unfold Tree.killRoot; split <;> rfl
  | setBuf s bs => exact Tree.setBuf_leader t s bs
  | stay | killGroup | reap => rfl

/-- The threads of the program create no process and change none. -/
theorem ForcedMove.exists_proc? (h : ForcedMove t t') {who : Who} {p : Proc}
    (hp : t'.proc? who = some p) : ∃ who', t.proc? who' = some p := by
  cases who with
  | root =>
    obtain ⟨hlive, rfl⟩ := Tree.proc?_root_eq_some.mp hp
    have hroot : t.root = .live := by
      rcases h.root with hr | ⟨hr, -⟩ | ⟨status, -, hr⟩
      · exact hr ▸ hlive
      · exact hr
      · rw [hr] at hlive; cases hlive
    exact ⟨.root, Tree.proc?_root_eq_some.mpr ⟨hroot, h.leader_eq.symm⟩⟩
  | kid n =>
    obtain ⟨m, hm⟩ := Tree.exists_proc?_of_mem (h.kids p (Tree.proc?_kid_mem hp))
    exact ⟨.kid m, hm⟩

/-- The threads of the program create no holder. -/
theorem ForcedMove.held (h : ForcedMove t t') (hh : t.held s = false) : t'.held s = false := by
  rw [Bool.eq_false_iff] at hh ⊢
  intro hheld
  obtain ⟨who, p, hp, hholds⟩ := Tree.held_iff.mp hheld
  obtain ⟨who', hp'⟩ := h.exists_proc? hp
  exact hh (Tree.held_iff.mpr ⟨who', p, hp', hholds⟩)

/-- What runs outside the group is out of reach of the program. -/
theorem ForcedMove.held_outside (h : ForcedMove t t') (hl : t.groupLive = false)
    (hroot : t.root ≠ .live) (hh : t.held s = true) : t'.held s = true := by
  obtain ⟨who, p, hp, hholds⟩ := Tree.held_iff.mp hh
  cases who with
  | root => exact absurd (Tree.proc?_root_eq_some.mp hp).1 hroot
  | kid n =>
    have hmem := Tree.proc?_kid_mem hp
    have hout : p.inGroup = false := by
      by_contra hin
      rw [Tree.groupLive_iff.mpr ⟨.kid n, p, hp, by simpa using hin⟩] at hl
      cases hl
    have hmem' : p ∈ t'.kids := by
      cases h with
      | stay | reap => exact hmem
      | killGroup status => exact List.mem_filter.mpr ⟨hmem, by simp [hout]⟩
      | killRoot status => unfold Tree.killRoot; split <;> exact hmem
      | setBuf s bs => rw [Tree.setBuf_kids]; exact hmem
    obtain ⟨m, hm⟩ := Tree.exists_proc?_of_mem hmem'
    exact Tree.held_iff.mpr ⟨.kid m, p, hm, hholds⟩

/-- A run thread that waits for a drain thread it needs goes on waiting: it does not take an
answer that is not there. -/
theorem MainMove.keeps_waiting [DecidableEq ι] {tr : List (Label ι)} {a : MainAct}
    (h : MainMove env c i hd r a hd' r') (hg : a.granted = true) (hl : Lifecycle c r)
    (hw : r.waiter.pc.Drained r.output)
    (hc : c.captureOutput = true → CaptureAt i tr r r.main.stage)
    (hb : r.main.beforeMonitor = false) (hn : r.needs c s = true) : r'.main.waits = true := by
  obtain ⟨hm, hdone, hpan⟩ := Run.needs_iff.mp hn
  -- a sender that has been dropped belongs to a drain thread that is not needed
  have hsender : SenderKept s r → r.output.chunks.tx s = true := by
    intro hk
    by_contra htx
    rcases hk (by simpa using htx) with hd | ⟨hi, hp⟩
    · exact hdone hd
    · exact (hpan hp).2 hi
  cases h with
  | openChannel | dropTx | startWait | callWait | recv | chunkReturns => rfl
  | recvClosed pc _ closed =>
    have hcap := hl.path true (by rw [pc]; rfl)
    have hkept := hc hcap
    rw [pc] at hkept
    have htx := hsender (hkept.2 s).2
    cases s <;> simp_all [ChunkChan.closed, ChunkChan.tx]
  | recvWait pc | recvWaitLost pc =>
    have hcap := hl.path true (by rw [pc]; rfl)
    have hkept := hc hcap
    rw [pc] at hkept
    obtain ⟨-, hk, htx, -⟩ := hkept.2 s
    rw [hsender hk] at htx
    cases htx
  | waitReturned pc returned =>
    rw [returned] at hw
    cases s
    · exact absurd hw.1 hdone
    · exact absurd hw.2 hdone
  | waitPanicked pc panicked =>
    have hcap := hl.path false (by rw [pc]; rfl)
    rw [(hpan panicked).1] at hcap
    cases hcap
  | startWaitFails | chunkPanics => cases hg
  | _ pc =>
    -- everywhere else the run thread does not wait, or the monitor has not been started
    have hmb : (r.main.waits && !r.main.beforeMonitor) = true := by rw [hm, hb]; rfl
    rw [pc] at hmb
    cases hmb

/-- A drain thread that is needed and whose pipe is held stays needed, whatever the threads
of the program are granted. -/
theorem needs_of_held [DecidableEq ι] {tr : List (Label ι)} (h : RunMove env c i hd r l r')
    (hg : l.granted = true) (hl : Lifecycle c r) (hw : r.waiter.pc.Drained r.output)
    (hc : c.captureOutput = true → CaptureAt i tr r r.main.stage)
    (hb : r.main.beforeMonitor = false) (hheld : r.tree.held s = true)
    (hn : r.needs c s = true) : r'.needs c s = true := by
  obtain ⟨hm, hdone, hpan⟩ := Run.needs_iff.mp hn
  cases h with
  | main h =>
    refine Run.needs_iff.mpr ⟨h.keeps_waiting hg hl hw hc hb hn, ?_, ?_⟩ <;> rw [h.drain_eq]
    · exact hdone
    · intro hp
      rcases h.waiter with hx | ⟨-, -, hx⟩ | hx <;> rw [hx] at hp
      · exact hpan hp
      · cases hp
      · exact hpan hp
  | monitor h =>
    refine Run.needs_iff.mpr ?_
    cases h <;> exact ⟨hm, hdone, hpan⟩
  | wait h =>
    cases h with
    | startOut pc =>
      refine Run.needs_iff.mpr ⟨hm, ?_, by simp⟩
      cases s <;> first | exact hdone | simp [Output.drain]
    | startErr pc =>
      refine Run.needs_iff.mpr ⟨hm, ?_, by simp⟩
      cases s <;> first | exact hdone | simp [Output.drain]
    | startOutFails | startErrFails | childWaitFails => cases hg
    | childWait =>
      refine Run.needs_iff.mpr ⟨hm, hdone, ?_⟩
      cases env.platform <;> simp [WaitPc.afterChildWait]
    | killTree | joinOut | joinErr | send | exit =>
      exact Run.needs_iff.mpr ⟨hm, hdone, by simp⟩
  | @drain s' _ _ _ h =>
    refine Run.needs_iff.mpr ⟨hm, ?_, fun hp => ⟨(hpan hp).1, ?_⟩⟩
    · by_cases hs : s = s'
      · subst hs
        cases h with
        | readBytes => cases c.captureOutput <;> simp
        | readEof _ _ free => rw [hheld] at free; cases free
        | readInterrupted | readError => cases hg
        | send => simp
      · rw [h.drain_ne hs]; exact hdone
    · by_cases hs : s = s'
      · subst hs; exact h.pc_ne_idle_after
      · rw [h.drain_ne hs]; exact (hpan hp).2
  | proc => cases hg
  | cancelKill | other => exact hn

end Needs

/-! ### Whole runs -/

section Ends

variable [DecidableEq ι] {env : Env} {cfg : ι → RunConfig} {tr : List (Label ι)}
  {w w' : World ι} {i : ι} {l : Label ι} {s : Stream}

/-- `run_impl` has returned or finished unwinding. -/
def Finished (i : ι) (w : World ι) : Prop := ∃ o, (w.runs i).main = .finished o

omit [DecidableEq ι] in
theorem Rooted.not_live {r : Run} (hr : Rooted r) (hm : r.main.underway = true)
    (hl : r.tree.groupLive = false) : r.tree.root ≠ .live := by
  intro hroot
  rw [Tree.groupLive_iff.mpr ⟨.root, r.tree.leader, Tree.proc?_root_eq_some.mpr ⟨hroot, rfl⟩,
    (hr.led hm).2⟩] at hl
  cases hl

/-- After the monitor has been started `spawn` is over. -/
theorem not_spawn_of_late (hstep : step env cfg w l = some w')
    (hb : (w.runs i).main.beforeMonitor = false) (b : SpawnAct) : l ≠ .main i (.spawn b) := by
  rintro rfl
  rcases mainMove_or_stays hstep i with ⟨a, ha, h⟩ | ⟨hne, -⟩
  · cases ha
    obtain ⟨s, hs⟩ := h.edge.spawning
    rw [hs] at hb
    cases hb
  · exact hne _ rfl

theorem beforeMonitor_step (hstep : step env cfg w l = some w')
    (hb : (w.runs i).main.beforeMonitor = false) : (w'.runs i).main.beforeMonitor = false := by
  rcases mainMove_or_stays hstep i with ⟨a, -, h⟩ | ⟨-, hm⟩
  · by_contra hb'
    rw [h.edge.beforeMonitor (by simpa using hb')] at hb
    cases hb
  · rw [hm]
    exact hb

omit [DecidableEq ι] in
theorem not_proc_of_granted (hg : l.granted = true) (a : ProcAct) : l ≠ .proc i a := by
  rintro rfl
  cases hg

/-- Nothing runs in the group, and no pipe that the run needs is held. -/
structure Unheld (c : RunConfig) (r : Run) : Prop where
  /-- The monitor has been started. -/
  late : r.main.beforeMonitor = false
  /-- Nothing runs in the group. -/
  quiet : r.tree.groupLive = false
  /-- No pipe that is needed is held. -/
  free : ∀ s, r.needs c s = true → r.tree.held s = false

theorem unheld_step (h : Reaches env cfg tr w) (hu : env.platform = .unix)
    (hstep : step env cfg w l = some w') (hg : l.granted = true)
    (hq : Unheld (cfg i) (w.runs i)) : Unheld (cfg i) (w'.runs i) := by
  have hmove := runMove_of_step hstep i
  have hspawn := not_spawn_of_late hstep hq.late
  refine ⟨beforeMonitor_step hstep hq.late, (hmove.tree hspawn).live.groupLive hq.quiet,
    fun s hs => ?_⟩
  have hneeds := hmove.needs (answered_of_reaches h i) (drained_of_reaches h hu i) hs
  exact (hmove.forced hspawn (not_proc_of_granted hg)).held (hq.free s hneeds)

/-- A run whose pipes are free is not stuck. -/
theorem Unheld.not_stuck (h : Reaches env cfg tr w) (hu : env.platform = .unix)
    (hq : Unheld (cfg i) (w.runs i)) : ¬Stuck (cfg i) (w.runs i) := by
  have hroot : (w.runs i).main.underway = true → (w.runs i).tree.root ≠ .live := fun hm =>
    (rooted_of_reaches h hu i).not_live hm hq.quiet
  have hheld : ∀ s, Starved (w.runs i) s → (w.runs i).needs (cfg i) s = true → False := by
    rintro s ⟨-, -, hh⟩ hn
    rw [hq.free s hn] at hh
    cases hh
  intro hstuck
  cases hstuck with
  | root main pc live => exact hroot (MainPc.underway_of_awaits main) live
  | guard main live => exact hroot (by rw [main]; rfl) live
  | @join s main pc drain =>
    refine hheld s drain (Run.needs_iff.mpr ⟨by simp [MainPc.waits, main], by simp [drain.1], ?_⟩)
    intro hp
    obtain ⟨res, hpc | hpc⟩ := pc <;> rw [hp] at hpc <;> cases hpc
  | @pump s main pc drain =>
    refine hheld s drain (Run.needs_iff.mpr ⟨by rw [main]; rfl, by simp [drain.1], fun _ => ?_⟩)
    exact ⟨(lifecycle_of_reaches h i).path true (by rw [main]; rfl), by simp [drain.1]⟩

/-- **If no pipe that it needs is held, the run can come to its end.** -/
theorem leads_to_end (h : Reaches env cfg tr w) (hu : env.platform = .unix)
    (hq : Unheld (cfg i) (w.runs i)) :
    Lts.Leads (step env cfg) (fun l => l.granted = true) w (Finished i) := by
  -- calls of `cancel()` come to their end first, and the mutex is free
  have hsettle := callers_settle (Q := fun w => Unheld (cfg i) (w.runs i)) h hq
    fun tr w q a w' hw hq hg hstep => unheld_step hw hu hstep hg hq
  refine (hsettle.imp (fun _ hl => hl.1) fun _ hw => hw).bind fun w₁ hw₁ => ?_
  refine Lts.leads_of_measure (fun w => (w.runs i).rank)
    (I := fun w => (∃ tr, Reaches env cfg tr w) ∧ (∀ q, w.callers q = .idle) ∧
      Unheld (cfg i) (w.runs i)) ?_ hw₁
  rintro w ⟨⟨tr, h⟩, hidle, hq⟩
  by_cases hfin : Finished i w
  · exact .inl hfin
  · have hfree : w.handle.locked = false := by
      by_contra hl
      obtain ⟨q, hq⟩ := exists_holder_of_reaches h (by simpa using hl)
      rw [hidle q] at hq
      cases hq
    obtain ⟨l, w', hg, -, hstep, hcallers, -, hlt⟩ :=
      (goes_on_or_stuck h hu (fun o ho => hfin ⟨o, ho⟩) (fun _ => hfree)
        fun _ => hidle (.callback i)).resolve_right (hq.not_stuck h hu)
    refine .inr ⟨l, w', hg, hstep, ⟨⟨_, Lts.exec_concat_eq_some.mpr ⟨w, h, hstep⟩⟩, ?_,
      unheld_step h hu hstep hg hq⟩, hlt⟩
    rw [hcallers]
    exact hidle

/-- **If a pipe that it needs is held from outside the group, it cannot.** -/
theorem not_leads_to_end (h : Reaches env cfg tr w) (hu : env.platform = .unix)
    (hb : (w.runs i).main.beforeMonitor = false) (hl : (w.runs i).tree.groupLive = false)
    (hn : (w.runs i).needs (cfg i) s = true) (hh : (w.runs i).tree.held s = true) :
    ¬Lts.Leads (step env cfg) (fun l => l.granted = true) w (Finished i) := by
  refine Lts.not_leads_of_invariant
    (I := fun w => (∃ tr, Reaches env cfg tr w) ∧ (w.runs i).main.beforeMonitor = false ∧
      (w.runs i).tree.groupLive = false ∧ (w.runs i).needs (cfg i) s = true ∧
      (w.runs i).tree.held s = true) ?_ ?_ ⟨⟨tr, h⟩, hb, hl, hn, hh⟩
  · rintro w l w' ⟨⟨tr, h⟩, hb, hl, hn, hh⟩ hg hstep
    have hmove := runMove_of_step hstep i
    have hspawn := not_spawn_of_late hstep hb
    have hunder := MainPc.underway_of_waits (Run.needs_iff.mp hn).1 hb
    have hroot := (rooted_of_reaches h hu i).not_live hunder hl
    refine ⟨⟨_, Lts.exec_concat_eq_some.mpr ⟨w, h, hstep⟩⟩, beforeMonitor_step hstep hb,
      (hmove.tree hspawn).live.groupLive hl, ?_,
      (hmove.forced hspawn (not_proc_of_granted hg)).held_outside hl hroot hh⟩
    exact needs_of_held hmove hg (lifecycle_of_reaches h i) (drained_of_reaches h hu i)
      (captureAt_of_reaches h) hb hh hn
  · rintro w ⟨-, -, -, hn, -⟩ ⟨o, ho⟩
    have hm := (Run.needs_iff.mp hn).1
    rw [ho] at hm
    cases hm

/-- **A timeout ends the run exactly when no pipe that the run needs is held.** -/
theorem timeout_ends_run_iff_no_pipe_is_held (h : Reaches env cfg tr w)
    (hunix : env.platform = .unix) (hdeadline : DeadlineHandled i tr w) :
    Lts.Leads (step env cfg) (fun l => l.granted = true) w (Finished i) ↔
      ∀ s, (w.runs i).needs (cfg i) s = true → (w.runs i).tree.held s = false := by
  have hl := groupLive_of_deadlineHandled h hdeadline
  have hb : (w.runs i).main.beforeMonitor = false := by
    by_contra hb
    have := monitor_idle_of_before h (by simpa using hb)
    rw [hdeadline.2.1] at this
    cases this
  constructor
  · intro hleads s hn
    by_contra hh
    exact not_leads_to_end h hunix hb hl hn (by simpa using hh) hleads
  · exact fun hfree => leads_to_end h hunix ⟨hb, hl, hfree⟩

end Ends

/-! ### A descendant that has left the group -/

/-- A Unix on which descendants may leave the group. -/
def Env.posixOpen : Env := ⟨.unix, true, false, 65536⟩

/-- A run with a timeout; its root creates a process, the deadline passes, and the root dies
by `SIGKILL` only. -/
def timedOutRun (kid : List (Label Unit)) : List (Label Unit) :=
  beginRun () 7 ++
  [.main () .callWait, .wait () (.startOut true), .wait () (.startErr true),
    .proc () (.fork .root)] ++ kid ++
  [.monitor () .deadline, .monitor () (.probe .present), .monitor () .store,
    .monitor () (.kill (.term .present)), .monitor () (.kill (.probe .present)),
    .monitor () (.kill (.clock true)), .monitor () (.kill (.kill .present))]

/-- The process stays in the group: the run can come to its end. -/
theorem timedOutRun_ends :
    ∃ w, Reaches Env.posixOpen (fun _ => ⟨some 1000, false, true⟩) (timedOutRun []) w ∧
      DeadlineHandled () (timedOutRun []) w ∧
      Lts.Leads (step Env.posixOpen fun _ => ⟨some 1000, false, true⟩) (fun l => l.granted = true)
        w (Finished ()) := by
  obtain ⟨w, hw, hdone, hheld⟩ : ∃ w,
      Reaches Env.posixOpen (fun _ => ⟨some 1000, false, true⟩) (timedOutRun []) w ∧
      (w.runs ()).monitor = .done ∧
      (w.runs ()).tree.held .stdout = false ∧ (w.runs ()).tree.held .stderr = false :=
    Lts.exists_exec_of_any (by decide +kernel)
  have hd : DeadlineHandled () (timedOutRun []) w := by
    refine ⟨by decide, hdone, ?_⟩
    simp [timedOutRun, beginRun, KillAct.refused]
  refine ⟨w, hw, hd, (timeout_ends_run_iff_no_pipe_is_held hw rfl hd).mpr fun s _ => ?_⟩
  cases s
  · exact hheld.1
  · exact hheld.2

/-- The process has left the group and holds its write ends: the monitor has done its work,
and the run cannot come to its end. -/
theorem escapedHolder_outlives_timeout :
    ∃ w, Reaches Env.posixOpen (fun _ => ⟨some 1000, false, true⟩)
        (timedOutRun [.proc () (.leave 0)]) w ∧
      DeadlineHandled () (timedOutRun [.proc () (.leave 0)]) w ∧
      ¬Lts.Leads (step Env.posixOpen fun _ => ⟨some 1000, false, true⟩)
        (fun l => l.granted = true) w (Finished ()) := by
  obtain ⟨w, hw, hdone, hlate, hlive, hneeds, hheld⟩ : ∃ w,
      Reaches Env.posixOpen (fun _ => ⟨some 1000, false, true⟩)
        (timedOutRun [.proc () (.leave 0)]) w ∧
      (w.runs ()).monitor = .done ∧ (w.runs ()).main.beforeMonitor = false ∧
      (w.runs ()).tree.groupLive = false ∧
      (w.runs ()).needs ⟨some 1000, false, true⟩ .stdout = true ∧
      (w.runs ()).tree.held .stdout = true :=
    Lts.exists_exec_of_any (by decide +kernel)
  refine ⟨w, hw, ⟨by decide, hdone, ?_⟩, not_leads_to_end hw rfl hlate hlive hneeds hheld⟩
  simp [timedOutRun, beginRun, KillAct.refused]

end AerCore
