import AerCore.Job

/-!
# The end of a job object

When the last reference to the job of a run is dropped, `CloseHandle` terminates what is
left in it.  Until then the handle is open, and every call on it is made by a thread that
owns a reference or borrows one that cannot go away under it, so no handle is used after it
has been closed.  What becomes of the processes is what could have become of them
without the job: they end.

## Main definitions

* `Label.usesJob` — the calls on the job handle of a run.
* `World.LetGo` — no thread and no slot owns a reference any more.

## Main results

* `job_runs_are_runs` — **the job objects add nothing but ends of processes**: what is
  proved of every reachable world holds with them.
* `job_open_at_use` — **no call is made on a handle that has been closed**.
* `job_closed_iff` — **the handle is closed once, when nobody owns a reference any more,
  and then nothing runs in the job**, refused terminations or not.
-/

namespace AerCore

variable {ι : Type*}

/-! ### Closing a job ends processes -/

/-- A process ends of its own accord, as far as the system can tell. -/
def ProcAct.ends : ProcAct → Bool
  | .rootExit _ | .kidExit _ => true
  | _ => false

/-- The end of a process. -/
def Label.ends : Label ι → Bool
  | .proc _ a => a.ends
  | _ => false

section Ends

variable {env : Env}

/-- The descendants in the group end one by one. -/
theorem exec_kids_end (t : Tree) (pre kids : List Proc) (h : t.kids = pre ++ kids) :
    ∃ acts, (∀ a ∈ acts, a.ends = true) ∧ Lts.exec (procStep env) t acts =
      some { t with
        kids := pre ++ kids.filter (fun p => !p.inGroup)
        zombies := t.zombies + kids.countP (·.inGroup) } := by
  induction kids generalizing t pre with
  | nil => exact ⟨[], by simp, by simp [← h]⟩
  | cons p kids ih =>
    cases hp : p.inGroup with
    | false =>
      obtain ⟨acts, hends, hexec⟩ := ih t (pre ++ [p]) (by simp [h])
      exact ⟨acts, hends, by simpa [hp] using hexec⟩
    | true =>
      let t₁ : Tree := { t with kids := pre ++ kids, zombies := t.zombies + 1 }
      have hstep : procStep env t (.kidExit pre.length) = some t₁ := by
        simp [procStep, h, hp, t₁, List.eraseIdx_append_of_length_le]
      obtain ⟨acts, hends, hexec⟩ := ih t₁ pre rfl
      refine ⟨.kidExit pre.length :: acts, by simpa [ProcAct.ends] using hends, ?_⟩
      rw [Lts.exec_cons, hstep, Option.bind_some, hexec]
      simp [hp, t₁]
      omega

/-- What a forced kill does, processes can do by ending. -/
theorem exec_killGroup (t : Tree) (code : Option ℤ) :
    ∃ acts, (∀ a ∈ acts, a.ends = true) ∧
      Lts.exec (procStep env) t acts = some (t.killGroup code) := by
  obtain ⟨acts, hends, hexec⟩ := exec_kids_end t [] t.kids rfl
  cases hroot : t.rootLive && t.leader.inGroup with
  | false => exact ⟨acts, hends, by simpa [Tree.killGroup, hroot] using hexec⟩
  | true =>
    obtain ⟨hlive, hin⟩ := (Bool.and_eq_true _ _).mp hroot
    refine ⟨acts ++ [.rootExit code], fun a ha => ?_, ?_⟩
    · rcases List.mem_append.mp ha with ha | ha
      · exact hends a ha
      · rw [List.mem_singleton.mp ha]
        rfl
    · refine Lts.exec_append_eq_some.mpr ⟨_, hexec, ?_⟩
      have hroot' : t.root = .live := Tree.rootLive_iff.mp hlive
      simp [procStep, Tree.killGroup, Tree.rootLive, hroot', hin]

end Ends

section Refine

variable [DecidableEq ι] {env : Env} {cfg : ι → RunConfig} {code : Option ℤ}
  {tr : List (Label ι)} {s s' : JobWorld ι} {w w' : World ι} {l : Label ι} {i : ι}

/-- Steps of the processes of one run. -/
theorem exec_procs {t : Tree} {acts : List ProcAct}
    (h : Lts.exec (procStep env) (w.runs i).tree acts = some t) :
    Lts.exec (step env cfg) w (acts.map (.proc i ·)) = some (w.setTree i t) := by
  induction acts generalizing w with
  | nil =>
    obtain rfl : (w.runs i).tree = t := by simpa using h
    simp [World.setTree, World.setRun]
  | cons a acts ih =>
    obtain ⟨t₁, ht₁, h⟩ := Option.bind_eq_some_iff.mp h
    have hstep : step env cfg w (.proc i a) = some (w.setTree i t₁) := by simp [step, ht₁]
    rw [List.map_cons, Lts.exec_cons, hstep, Option.bind_some, ih (by simpa using h)]
    simp [World.setTree, World.setRun]

/-- The step assigns to the kill slot. -/
def Label.assignsSlot : Label ι → Bool
  | .main _ .wire | .main _ .clear => true
  | _ => false

/-- The job that a step closes is that of the run that moves, or the one in the slot. -/
theorem closes_cases (h : s.closes cfg l i = true) :
    (l.assignsSlot = false ∧ l.touches i = true) ∨
      (l.assignsSlot = true ∧ s.world.handle.kill = some i) := by
  have hops : jobOps cfg s.world i l ≠ [] := fun hnil => by
    simp [JobWorld.closes, JobWorld.nextJobs, hnil] at h
  cases l with
  | main j a =>
    by_cases ha : (Label.main j a).assignsSlot = true
    · refine .inr ⟨ha, ?_⟩
      by_contra hs
      cases a with
      | wire =>
        -- what is wired is a clone, and the slot held the job of no other run
        by_cases hj : j = i
        · simp [JobWorld.closes, JobWorld.nextJobs, jobOps, mainOps, slotOps, hj,
            Counted.apply] at h
        · simp [jobOps, slotOps, hj, hs] at hops
      | clear => simp [jobOps, mainOps, slotOps, hs] at hops
      | _ => cases ha
    · refine .inl ⟨Bool.eq_false_iff.mpr ha, ?_⟩
      by_contra hj
      have hne : ¬j = i := by simpa [Label.touches] using hj
      cases a with
      | wire | clear => exact ha rfl
      | _ => simp [jobOps, slotOps, hne] at hops
  | monitor j a | wait j a =>
    refine .inl ⟨rfl, ?_⟩
    by_contra hj
    have hne : ¬j = i := by simpa [Label.touches] using hj
    simp [jobOps, hne] at hops
  | cancel x a =>
    refine .inl ⟨rfl, ?_⟩
    cases a with
    | fire j =>
      -- firing clones a reference and drops none
      by_cases hj : j = i <;>
        simp [JobWorld.closes, JobWorld.nextJobs, jobOps, cancelOps, hj, Counted.apply] at h
    | kill j a =>
      by_contra hj
      have hne : ¬j = i := by simpa [Label.touches] using hj
      cases a <;> simp [jobOps, cancelOps, hne] at hops
    | _ => exact absurd rfl hops
  | drain | proc => exact absurd rfl hops

theorem eq_of_touches {i' : ι} (h : l.touches i = true) (h' : l.touches i' = true) : i = i' := by
  cases l with
  | cancel x a =>
    cases a with
    | kill j a => exact (of_decide_eq_true h).symm.trans (of_decide_eq_true h')
    | _ => cases h
  | _ => exact (of_decide_eq_true h).symm.trans (of_decide_eq_true h')

/-- A step closes one job at most. -/
theorem closes_unique {i' : ι} (h : s.closes cfg l i = true) (h' : s.closes cfg l i' = true) :
    i = i' := by
  rcases closes_cases h with ⟨ha, hi⟩ | ⟨ha, hi⟩ <;>
    rcases closes_cases h' with ⟨ha', hi'⟩ | ⟨ha', hi'⟩
  · exact eq_of_touches hi hi'
  · rw [ha] at ha'
    cases ha'
  · rw [ha] at ha'
    cases ha'
  · exact Option.some.inj (hi.symm.trans hi')

theorem closeJobs_eq {closed : ι → Bool}
    (h : ∀ i i', closed i = true → closed i' = true → i = i') :
    w.closeJobs code closed = w ∨
      ∃ x, w.closeJobs code closed = w.setTree x ((w.runs x).tree.killGroup code) := by
  by_cases hx : ∃ x, closed x = true
  · obtain ⟨x, hx⟩ := hx
    refine .inr ⟨x, ?_⟩
    have hruns : (w.closeJobs code closed).runs =
        (w.setTree x ((w.runs x).tree.killGroup code)).runs := by
      funext i
      by_cases hi : i = x
      · subst hi
        simp [World.closeJobs, hx]
      · have hci : closed i = false := Bool.eq_false_iff.mpr fun hc => hi (h i x hc hx)
        simp [World.closeJobs, hci, World.setTree, setRun_runs_ne _ _ hi]
    simp only [World.closeJobs, World.setTree, World.setRun] at hruns ⊢
    rw [hruns]
  · have hnone : ∀ i, closed i = false := fun i => by
      rw [← Bool.not_eq_true]
      exact fun hi => hx ⟨i, hi⟩
    exact .inl (by simp [World.closeJobs, hnone])

/-- What the end of a job does, its processes could have done. -/
theorem exec_closeJobs {closed : ι → Bool}
    (h : ∀ i i', closed i = true → closed i' = true → i = i') :
    ∃ ls : List (Label ι), (∀ l ∈ ls, l.ends = true) ∧
      Lts.exec (step env cfg) w ls = some (w.closeJobs code closed) := by
  rcases closeJobs_eq h with heq | ⟨x, heq⟩
  · exact ⟨[], by simp, by rw [heq]; rfl⟩
  · obtain ⟨acts, hends, hexec⟩ := exec_killGroup (w.runs x).tree code
    refine ⟨acts.map (.proc x ·), fun l hl => ?_, by rw [heq]; exact exec_procs hexec⟩
    obtain ⟨a, ha, rfl⟩ := List.mem_map.mp hl
    exact hends a ha

/-- A step with job objects is one without, and perhaps ends of processes. -/
theorem exec_of_jobStep (h : jobStep env cfg code s l = some s') :
    ∃ ls : List (Label ι), (∀ l ∈ ls, l.ends = true) ∧
      Lts.exec (step env cfg) s.world (l :: ls) = some s'.world := by
  obtain ⟨w, hw, rfl⟩ := Option.map_eq_some_iff.mp h
  obtain ⟨ls, hends, hexec⟩ : ∃ ls : List (Label ι), (∀ l ∈ ls, l.ends = true) ∧
      Lts.exec (step env cfg) w ls = some (w.closeJobs code (s.closes cfg l)) :=
    exec_closeJobs fun _ _ => closes_unique
  exact ⟨ls, hends, Lts.exec_of_step hw hexec⟩

theorem reaches_of_jobReaches (h : JobReaches env cfg code tr s) :
    ∃ tr', Reaches env cfg tr' s.world := by
  refine Lts.exec_invariant (P := fun _ s => ∃ tr', Reaches env cfg tr' s.world) ?_ ?_ h
  · exact ⟨[], rfl⟩
  · rintro _ s l s' - ⟨tr', hw⟩ hstep
    obtain ⟨ls, -, hexec⟩ := exec_of_jobStep hstep
    exact ⟨tr' ++ l :: ls, Lts.exec_append_eq_some.mpr ⟨s.world, hw, hexec⟩⟩

/-- **The job objects add nothing but ends of processes to the system.** -/
theorem job_runs_are_runs (h : JobReaches env cfg code tr s) :
    ∃ tr', Reaches env cfg tr' s.world ∧ tr.Sublist tr' ∧
      tr'.filter (fun l => !l.ends) = tr.filter (fun l => !l.ends) := by
  refine Lts.exec_invariant (P := fun tr s => ∃ tr', Reaches env cfg tr' s.world ∧
    tr.Sublist tr' ∧ tr'.filter (fun l => !l.ends) = tr.filter (fun l => !l.ends)) ?_ ?_ h
  · exact ⟨[], rfl, List.Sublist.refl _, rfl⟩
  · rintro tr s l s' - ⟨tr', hw, hsub, hfilter⟩ hstep
    obtain ⟨ls, hends, hexec⟩ := exec_of_jobStep hstep
    have hnone : ls.filter (fun l => !l.ends) = [] :=
      List.filter_eq_nil_iff.mpr fun l hl => by simp [hends l hl]
    refine ⟨tr' ++ l :: ls, Lts.exec_append_eq_some.mpr ⟨s.world, hw, hexec⟩, ?_, ?_⟩
    · exact hsub.append (by simp)
    · rw [List.filter_append, List.filter_append, hfilter]
      cases hl : l.ends <;> simp [hl, hnone]

end Refine

/-! ### The life of a job -/

/-- `spawn` makes the job of run `i`. -/
def makesJob (i : ι) : Label ι := .main i (.spawn (.createJob (.ok ())))

section Life

variable [DecidableEq ι] {env : Env} {cfg : ι → RunConfig} {code : Option ℤ}
  {tr : List (Label ι)} {s s' : JobWorld ι} {w w' : World ι} {l : Label ι} {i : ι}

/-- What has become of the job of run `i`. -/
structure JobInv (tr : List (Label ι)) (s : JobWorld ι) (i : ι) : Prop where
  /-- Who owns a reference. -/
  owned : Owned s.world i (s.jobs i)
  /-- The job has not been made. -/
  fresh : makesJob i ∉ tr → s.jobs i = .fresh
  /-- It is open, or it has been closed. -/
  made : makesJob i ∈ tr → (s.jobs i).Open ∨ (s.jobs i).Closed
  /-- It is made once. -/
  begun : (s.world.runs i).main = .spawn .createJob → makesJob i ∉ tr

omit [DecidableEq ι] in
theorem Owned.closeJobs {k : Counted (JobOwner ι)} {closed : ι → Bool} (h : Owned w i k) :
    Owned (w.closeJobs code closed) i k := by
  have hrun : ((w.closeJobs code closed).runs i).main = (w.runs i).main ∧
      ((w.closeJobs code closed).runs i).monitor = (w.runs i).monitor ∧
      ((w.closeJobs code closed).runs i).waiter = (w.runs i).waiter := by
    simp only [World.closeJobs]
    split <;> exact ⟨rfl, rfl, rfl⟩
  obtain ⟨hmain, hmonitor, hwaiter⟩ := hrun
  refine ⟨fun o ho => ?_, h.slot, h.canceller, ?_, ?_⟩
  · have howns : ((w.closeJobs code closed).runs i).owns o = (w.runs i).owns o :=
      Run.owns_congr (fun _ => by rw [hmain]) (by rw [hmonitor]) (by rw [hwaiter]) o
    rw [h.run o ho, howns]
  · rw [hmain]; exact h.handle
  · rw [hmain]; exact h.moved

omit [DecidableEq ι] in
theorem jobInv_init (env : Env) (hwin : env.platform = .windows) (i : ι) :
    JobInv [] (JobWorld.init ι env) i := by
  have hmain : (Run.init env).main = .spawn .createJob := by simp [Run.init, SpawnPc.entry, hwin]
  refine ⟨⟨fun o ho => ?_, ?_, fun x => ?_, ?_, ?_⟩, fun _ => rfl, by simp, by simp⟩
  · cases o <;> simp [JobWorld.init, World.init, Counted.fresh, Run.owns, MainPc.owns, hmain,
      SpawnPc.hasJob] <;> rfl
  · simp [JobWorld.init, World.init, Counted.fresh, CancelHandle.new]
  · simp [JobWorld.init, World.init, Counted.fresh]
  · simp [JobWorld.init, World.init, MainPc.keepsHandle, hmain]
  · simp [JobWorld.init, World.init, Counted.fresh]

/-- A job that has not been made is not touched. -/
theorem fresh_run {ops : List (CountedOp (JobOwner ι))} (hops : ∀ o, .make o ∉ ops)
    (h : Counted.fresh.AllAllowed ops) : Counted.fresh.run ops = Counted.fresh := by
  induction ops with
  | nil => rfl
  | cons op ops ih =>
    have hop : Counted.fresh.apply op = Counted.fresh := by
      cases op with
      | make o => exact absurd (by simp) (hops o)
      | clone src dst => exact absurd h.1 (by simp [Counted.Allowed, Counted.fresh])
      | move | drop => simp [Counted.apply, Counted.fresh]
    rw [Counted.run_cons, hop]
    exact ih (fun o ho => hops o (List.mem_cons_of_mem _ ho)) (hop ▸ h.2)

/-- The first reference is made where the job is. -/
theorem make_mem_jobOps {o : JobOwner ι} (h : .make o ∈ jobOps cfg w i l) : l = makesJob i := by
  cases l with
  | main j a =>
    rcases List.mem_append.mp h with h | h
    · split at h
      · next hj =>
        subst hj
        unfold mainOps at h
        split at h
        · rfl
        all_goals (try split at h) <;> (try split at h) <;> simp at h
      · cases h
    · unfold slotOps at h
      split at h <;> (try split at h) <;> simp at h
  | monitor j a =>
    simp only [jobOps, monitorOps] at h
    split at h <;> (try split at h) <;> simp at h
  | wait j a =>
    simp only [jobOps, waitOps] at h
    split at h <;> (try split at h) <;> simp at h
  | cancel x a =>
    simp only [jobOps, cancelOps] at h
    split at h <;> (try split at h) <;> simp at h
  | drain | proc => cases h

omit [DecidableEq ι] in
theorem closeJobs_main {closed : ι → Bool} :
    ((w.closeJobs code closed).runs i).main = (w.runs i).main := by
  simp only [World.closeJobs]
  split <;> rfl

/-- `spawn` does not go back to its first call. -/
theorem main_of_createJob (hstep : step env cfg w l = some w') (hwin : env.platform = .windows)
    (hm : (w'.runs i).main = .spawn .createJob) :
    (w.runs i).main = .spawn .createJob ∧ l ≠ makesJob i := by
  rcases mainMove_or_stays hstep i with ⟨a, -, h⟩ | ⟨hl, heq⟩
  · have hedge := h.edge
    rw [hm] at hedge
    obtain ⟨-, b, rfl⟩ := hedge.of_spawn
    generalize w'.runs i = r' at h hm
    generalize w'.handle = hd' at h
    cases h with
    | spawnMore pc h => cases spawnEdge_of_step h hwin <;> cases hm
    | spawnOk | spawnFailed => cases hm
  · exact ⟨heq.symm.trans hm, hl _⟩

theorem jobInv_of_reaches (h : JobReaches env cfg code tr s) (hwin : env.platform = .windows)
    (i : ι) : JobInv tr s i := by
  refine Lts.exec_invariant (P := fun tr s => JobInv tr s i) ?_ ?_ h
  · exact jobInv_init env hwin i
  · intro tr s l s' hs hinv hstep
    obtain ⟨tr', hw⟩ := reaches_of_jobReaches hs
    obtain ⟨w, hw', rfl⟩ := Option.map_eq_some_iff.mp hstep
    have hcalls := onWindows_of_reaches hw hwin
    have hidle : (s.world.runs i).main = .startMonitor → (s.world.runs i).monitor = .idle :=
      fun hm => monitor_idle_of_before hw (by rw [hm]; rfl)
    have hnew : (s.world.runs i).main = .spawn .createJob → s.jobs i = .fresh :=
      fun hm => hinv.fresh (hinv.begun hm)
    have hallowed := allowed_of_step hcalls (guarded_of_reaches hw) hwin hnew hw' hinv.owned
    have howned := owned_of_step hcalls hwin hidle hw' hinv.owned
    refine ⟨howned.closeJobs, fun hmade => ?_, fun hmade => ?_, fun hm hmade => ?_⟩
    · obtain ⟨htr, hl⟩ : makesJob i ∉ tr ∧ makesJob i ≠ l := by simpa using hmade
      have hfresh := hinv.fresh htr
      rw [hfresh] at hallowed
      simp only [JobWorld.nextJobs, hfresh]
      exact fresh_run (fun o ho => hl (make_mem_jobOps ho).symm) hallowed
    · by_cases htr : makesJob i ∈ tr
      · exact Counted.open_or_closed_run (hinv.made htr) hallowed
      · obtain rfl : makesJob i = l := by simpa [htr] using hmade
        have hops : jobOps cfg s.world i (makesJob i) = [.make .spawn] := by
          simp [jobOps, makesJob, mainOps, slotOps]
        simp only [JobWorld.nextJobs, hops, hinv.fresh htr]
        exact .inl (Counted.open_of_make rfl)
    · rw [closeJobs_main] at hm
      obtain ⟨hbefore, hl⟩ := main_of_createJob hw' hwin hm
      rcases List.mem_append.mp hmade with htr | hl'
      · exact hinv.begun hbefore htr
      · exact hl (List.mem_singleton.mp hl').symm

/-! ### The handle is open where it is used -/

/-- The step calls the system on the job handle of run `i`. -/
def Label.usesJob (i : ι) : Label ι → Bool
  | .main j (.spawn (.setInfo _)) | .main j (.spawn (.assign _)) | .main j (.probe _)
  | .main j (.kill _) | .main j (.guardKill _) | .monitor j (.probe _) | .monitor j (.kill _)
  | .wait j (.killTree _) | .cancel _ (.probe j _) | .cancel _ (.kill j _) => decide (j = i)
  | _ => false

/-- Whoever makes a call on the handle owns a reference, or has borrowed that of `run_impl`
or, under the mutex, that of the slot. -/
theorem exists_owner_of_use (hg : Guarded w) (hwin : env.platform = .windows)
    (hstep : step env cfg w l = some w') (huse : l.usesJob i = true)
    {k : Counted (JobOwner ι)} (hk : Owned w i k) : ∃ o, o ∈ k.owners := by
  have hown : ∀ o : JobOwner ι, o.ofRun = true → (w.runs i).owns o = true → ∃ o, o ∈ k.owners :=
    fun o ho h => ⟨o, (hk.run o ho).mpr h⟩
  have hrun := runMove_of_step hstep i
  generalize w'.runs i = r' at hrun
  cases hrun with
  | main h =>
    cases h with
    | spawnMore pc h | spawnOk pc h | spawnFailed pc h =>
      cases spawnEdge_of_step h hwin <;>
        first | cases huse | exact hown .spawn rfl (by simp only [Run.owns, pc]; rfl)
    | probeMore pc | probeAlive pc | probeDead pc => exact ⟨.handle, hk.handle (by rw [pc]; rfl)⟩
    | killMore pc | killDone pc => exact hown .wiring rfl (by simp only [Run.owns, pc]; rfl)
    | guardMore pc | guardDone pc => exact hown .dropGuard rfl (by simp only [Run.owns, pc]; rfl)
    | _ => cases huse
  | monitor h =>
    cases h with
    | probeMore pc | probeAlive pc | probeDead pc | killMore pc | killDone pc =>
      exact hown .monitor rfl (by simp only [Run.owns, pc]; rfl)
    | _ => cases huse
  | wait h =>
    cases h with
    | killTree pc => exact hown .wait rfl (by simp only [Run.owns, pc]; rfl)
    | _ => cases huse
  | drain | proc => cases huse
  | @cancelKill x =>
    cases cancelMove_of_step (by simpa [step] using hstep) with
    | killMore pc | killDone pc => exact ⟨.canceller x, (hk.canceller x).mpr ⟨_, pc⟩⟩
  | other hl =>
    cases l with
    | cancel x a =>
      cases cancelMove_of_step hstep with
      | @probeMore j p y p' pc | @probeAlive j p y pc | @probeDead j p y pc =>
        obtain rfl : j = i := of_decide_eq_true huse
        exact ⟨.slot, hk.slot.mpr (hg.slot x j (by rw [pc]; rfl))⟩
      | killMore | killDone => exact absurd huse (Bool.eq_false_iff.mp hl)
      | _ => cases huse
    | main j a =>
      cases a with
      | spawn b => cases b <;> first | cases huse | exact absurd huse (Bool.eq_false_iff.mp hl)
      | probe | kill | guardKill => exact absurd huse (Bool.eq_false_iff.mp hl)
      | _ => cases huse
    | monitor j a | wait j a =>
      cases a <;> first | cases huse | exact absurd huse (Bool.eq_false_iff.mp hl)
    | drain | proc => cases huse

theorem JobInv.open_of_owner {o : JobOwner ι} (hinv : JobInv tr s i)
    (ho : o ∈ (s.jobs i).owners) : (s.jobs i).Open := by
  refine Counted.open_of_mem (hinv.made ?_) ho
  by_contra hmade
  rw [hinv.fresh hmade] at ho
  simp [Counted.fresh] at ho

/-- **A job handle is never used after it has been closed**, whichever thread makes the call
and in whatever order the others have let go of it. -/
theorem job_open_at_use (h : JobReaches env cfg code tr s) (hwin : env.platform = .windows)
    (hstep : jobStep env cfg code s l = some s') (huse : l.usesJob i = true) :
    (s.jobs i).Open := by
  obtain ⟨tr', hw⟩ := reaches_of_jobReaches h
  obtain ⟨w, hw', -⟩ := Option.map_eq_some_iff.mp hstep
  have hinv := jobInv_of_reaches h hwin i
  obtain ⟨o, ho⟩ := exists_owner_of_use (guarded_of_reaches hw) hwin hw' huse hinv.owned
  exact hinv.open_of_owner ho

/-! ### The handle is closed when everybody has let go -/

/-- No thread and no slot owns a reference to the job of run `i`: `run_impl` has been left,
`wait` has come to its `drop(kill)` if it was called, the monitor has ended if it was
started, the kill slot holds another run or none, and no call of `cancel()` is killing. -/
structure World.LetGo (w : World ι) (i : ι) : Prop where
  main : ∃ o, (w.runs i).main = .finished o
  wait : (w.runs i).waiter.pc.owns = false
  monitor : (w.runs i).monitor.owns = false
  slot : w.handle.kill ≠ some i
  callers : ∀ x p, w.callers x ≠ .kill i p

omit [DecidableEq ι] in
theorem Owned.empty_iff {k : Counted (JobOwner ι)} (hk : Owned w i k)
    (hbegun : (w.runs i).main ≠ .spawn .createJob) : k.owners = ∅ ↔ w.LetGo i := by
  rw [Finset.eq_empty_iff_forall_notMem]
  constructor
  · intro hnone
    have hrun : ∀ o : JobOwner ι, o.ofRun = true → (w.runs i).owns o = false := fun o ho =>
      Bool.eq_false_iff.mpr fun h => hnone o ((hk.run o ho).mpr h)
    refine ⟨?_, hrun .wait rfl, hrun .monitor rfl, fun h => hnone _ (hk.slot.mpr h),
      fun x p h => hnone _ ((hk.canceller x).mpr ⟨p, h⟩)⟩
    have hguard := hrun .guard rfl
    have hspawn := hrun .spawn rfl
    simp only [Run.owns] at hguard hspawn
    cases hm : (w.runs i).main with
    | finished o => exact ⟨o, rfl⟩
    | spawn s =>
      rw [hm] at hspawn
      cases s <;> first | exact absurd hm hbegun | cases hspawn
    | _ =>
      rw [hm] at hguard
      cases hguard
  · rintro ⟨⟨e, hm⟩, hwait, hmonitor, hslot, hcallers⟩ o ho
    have hrun : o.ofRun = true → (w.runs i).owns o = true := fun h => (hk.run o h).mp ho
    cases o with
    | handle =>
      have := hk.moved ho
      rw [hm] at this
      rcases this with h | h <;> cases h
    | slot => exact hslot (hk.slot.mp ho)
    | canceller x =>
      obtain ⟨p, hp⟩ := (hk.canceller x).mp ho
      exact hcallers x p hp
    | wait => exact absurd (hrun rfl) (Bool.eq_false_iff.mp hwait)
    | monitor => exact absurd (hrun rfl) (Bool.eq_false_iff.mp hmonitor)
    | _ =>
      have := hrun rfl
      simp only [Run.owns, hm] at this
      cases this

omit [DecidableEq ι] in
theorem closeJobs_liveFrom {closed : ι → Bool} :
    Tree.LiveFrom (w.runs i).tree ((w.closeJobs code closed).runs i).tree := by
  simp only [World.closeJobs]
  split
  · exact Tree.liveFrom_killGroup _ code
  · exact fun who p hp => ⟨who, p, hp, id⟩

/-- Once the job has been closed, `spawn` is over. -/
theorem JobInv.spawned_of_closed (hinv : JobInv tr s i) (hc : (s.jobs i).releases = 1) :
    s.world.LetGo i ∧ makesJob i ∈ tr := by
  have hmade : makesJob i ∈ tr := by
    by_contra hmade
    rw [hinv.fresh hmade] at hc
    cases hc
  rcases hinv.made hmade with hopen | hclosed
  · rw [hopen.2] at hc
    cases hc
  · exact ⟨(hinv.owned.empty_iff fun hm => hinv.begun hm hmade).mp hclosed.1, hmade⟩

/-- In a job that has been closed nothing runs. -/
theorem groupLive_of_closed (h : JobReaches env cfg code tr s) (hwin : env.platform = .windows)
    (hc : (s.jobs i).releases = 1) : (s.world.runs i).tree.groupLive = false := by
  refine Lts.exec_invariant (P := fun _ s => (s.jobs i).releases = 1 →
    (s.world.runs i).tree.groupLive = false) ?_ ?_ h hc
  · intro hc
    cases hc
  · intro tr s l s' hs ih hstep hc
    have hinv := jobInv_of_reaches hs hwin i
    obtain ⟨w, hw', rfl⟩ := Option.map_eq_some_iff.mp hstep
    by_cases hbefore : (s.jobs i).releases = 1
    · -- the run has been left, so its tree only shrinks
      obtain ⟨⟨⟨o, hm⟩, -⟩, -⟩ := hinv.spawned_of_closed hbefore
      have hspawned : ∀ a, l ≠ .main i (.spawn a) := by
        rintro a rfl
        rcases mainMove_or_stays hw' i with ⟨b, hb, h⟩ | ⟨hne, -⟩
        · cases hb
          obtain ⟨s₀, hs₀⟩ := h.edge.spawning
          rw [hm] at hs₀
          cases hs₀
        · exact hne _ rfl
      have htree := (runMove_of_step hw' i).tree hspawned
      exact closeJobs_liveFrom.groupLive (htree.live.groupLive (ih hbefore))
    · have hlt : s.closes cfg l i = true := by
        have hzero : (s.jobs i).releases = 0 := by
          by_cases hmade : makesJob i ∈ tr
          · exact (hinv.made hmade).elim And.right fun hclosed => absurd hclosed.2 hbefore
          · rw [hinv.fresh hmade]
            rfl
        have hone : (s.nextJobs cfg l i).releases = 1 := hc
        simp [JobWorld.closes, hzero, hone]
      simp only [World.closeJobs, hlt, if_true]
      exact Tree.killGroup_groupLive _ code

/-- **The job of a run is closed once, as soon as nobody owns a reference to it any more, and
then nothing runs in it**, even if every call of `TerminateJobObject` was refused. -/
theorem job_closed_iff (h : JobReaches env cfg code tr s) (hwin : env.platform = .windows) (i : ι) :
    (s.jobs i).releases ≤ 1 ∧
      ((s.jobs i).releases = 1 ↔ makesJob i ∈ tr ∧ s.world.LetGo i) ∧
      ((s.jobs i).releases = 1 → (s.world.runs i).tree.groupLive = false) := by
  have hinv := jobInv_of_reaches h hwin i
  refine ⟨?_, ⟨fun hc => (hinv.spawned_of_closed hc).symm, ?_⟩, groupLive_of_closed h hwin⟩
  · by_cases hmade : makesJob i ∈ tr
    · rcases hinv.made hmade with hopen | hclosed
      · rw [hopen.2]
        exact Nat.zero_le 1
      · exact hclosed.2.le
    · rw [hinv.fresh hmade]
      exact Nat.zero_le 1
  · rintro ⟨hmade, hgo⟩
    have hempty := (hinv.owned.empty_iff fun hm => hinv.begun hm hmade).mpr hgo
    rcases hinv.made hmade with hopen | hclosed
    · simp [Counted.Open, hempty] at hopen
    · exact hclosed.2

/-! ### What the job holds -/

/-- The root of run `i` joins its job. -/
def joinsJob (i : ι) : Label ι := .main i (.spawn (.assign (.ok ())))

/-- The root is alone until it joins the job, and from then on its tree is in the job. -/
structure Joined (tr : List (Label ι)) (r : Run) (i : ι) : Prop where
  alone : ∀ pid, r.main = .spawn (.assign pid) →
    r.tree.leader.inGroup = false ∧ r.tree.kids = []
  joined : joinsJob i ∈ tr → (∀ s, r.main ≠ .spawn s) ∧ r.tree.Contained

omit [DecidableEq ι] in
theorem closeJobs_forced {closed : ι → Bool} :
    ForcedMove (w.runs i).tree ((w.closeJobs code closed).runs i).tree := by
  simp only [World.closeJobs]
  split
  · exact .killGroup code
  · exact .stay

omit [DecidableEq ι] in
theorem MainMove.joined {c : RunConfig} {hd hd' : CancelHandle ι} {r r' : Run} {a : MainAct}
    (h : MainMove env c i hd r a hd' r') (hforced : (∀ b, a ≠ .spawn b) → ForcedMove r.tree r'.tree)
    (hwin : env.platform = .windows) (hj : Joined tr r i) :
    Joined (tr ++ [Label.main i a]) r' i := by
  -- away from `spawn` nothing joins the job, and the threads only end processes
  have away (ha : ∀ b, a ≠ .spawn b) : Joined (tr ++ [Label.main i a]) r' i := by
    have hnot : ∀ s, r'.main ≠ .spawn s := fun s hs => by
      have hedge := h.edge
      rw [hs] at hedge
      obtain ⟨-, b, hb⟩ := hedge.of_spawn
      exact ha b hb
    refine ⟨fun pid hm => absurd hm (hnot _), fun hin => ⟨hnot, ?_⟩⟩
    rcases List.mem_append.mp hin with hin | hin
    · exact (hj.joined hin).2.forced (hforced ha)
    · cases List.mem_singleton.mp hin
      exact absurd rfl (ha _)
  have failed (b : SpawnAct) (hb : b ≠ .assign (.ok ())) {s : SpawnPc} (pc : r.main = .spawn s) :
      joinsJob i ∉ tr ++ [Label.main i (.spawn b)] := fun hin => by
    rcases List.mem_append.mp hin with hin | hin
    · exact (hj.joined hin).1 _ pc
    · cases List.mem_singleton.mp hin
      exact hb rfl
  cases h with
  | spawnMore pc h =>
    cases spawnEdge_of_step h hwin with
    | spawned =>
      simp only [spawnStep, hwin, Option.some.injEq, Prod.mk.injEq] at h
      obtain ⟨rfl, -⟩ := h
      exact ⟨fun _ _ => ⟨rfl, rfl⟩, fun hin => absurd hin (failed _ (by simp) pc)⟩
    | _ => exact ⟨fun pid hm => (by cases hm), fun hin => absurd hin (failed _ (by simp) pc)⟩
  | spawnOk pc h =>
    cases spawnEdge_of_step h hwin
    obtain ⟨-, hkids⟩ := hj.alone _ pc
    simp only [spawnStep, Option.some.injEq, Prod.mk.injEq] at h
    obtain ⟨rfl, -⟩ := h
    exact ⟨fun pid hm => (by cases hm), fun _ => ⟨by simp, rfl, by simp [hkids]⟩⟩
  | spawnFailed pc h =>
    cases spawnEdge_of_step h hwin <;>
      exact ⟨fun pid hm => (by cases hm), fun hin => absurd hin (failed _ (by simp) pc)⟩
  | _ => exact away (by simp)

theorem joined_move {c : RunConfig} {hd : CancelHandle ι} {r r' : Run}
    (h : RunMove env c i hd r l r') (hwin : env.platform = .windows)
    (hfork : ∀ who p, l = .proc i (.fork who) → r.tree.proc? who = some p → p.inGroup = true)
    (hj : Joined tr r i) : Joined (tr ++ [l]) r' i := by
  have hforced := h.forced
  -- a step of another thread leaves the run thread where it is
  have stays (hl : ∀ a, l ≠ .main i a) (hm : r'.main = r.main)
      (halone : r.tree.leader.inGroup = false ∧ r.tree.kids = [] →
        r'.tree.leader.inGroup = false ∧ r'.tree.kids = [])
      (hcont : r.tree.Contained → r'.tree.Contained) : Joined (tr ++ [l]) r' i := by
    refine ⟨fun pid h => halone (hj.alone pid (hm ▸ h)), fun hin => ?_⟩
    rcases List.mem_append.mp hin with hin | hin
    · obtain ⟨hspawn, hc⟩ := hj.joined hin
      exact ⟨fun s => hm ▸ hspawn s, hcont hc⟩
    · exact absurd (List.mem_singleton.mp hin).symm (hl _)
  have forced (hl : ∀ a, l ≠ .main i a) (hm : r'.main = r.main)
      (hf : ForcedMove r.tree r'.tree) : Joined (tr ++ [l]) r' i :=
    stays hl hm (fun ha => ⟨hf.leader.trans ha.1, kids_nil_of_forced hf ha.2⟩)
      fun hc => hc.forced hf
  cases h with
  | main h => exact h.joined (fun ha => hforced (by simpa using ha) (by simp)) hwin hj
  | monitor h => exact forced (by simp) h.main_eq (hforced (by simp) (by simp))
  | wait | drain | cancelKill => exact forced (by simp) rfl (hforced (by simp) (by simp))
  | @proc a t h =>
    have henv : env.keepsGroup := fun hu => by rw [hwin] at hu; cases hu
    refine stays (by simp) rfl (fun ⟨hleader, hkids⟩ => ?_) fun hc => ?_
    · refine ⟨(procStep_leader h).trans hleader, procStep_kids_nil h (fun ha => ?_) hkids⟩
      -- the root is outside the job, so it creates nothing
      cases hp : r.tree.proc? .root with
      | none => rfl
      | some p =>
        subst ha
        have hin := hfork .root p rfl hp
        obtain ⟨-, rfl⟩ := Tree.proc?_root_eq_some.mp hp
        rw [hleader] at hin
        cases hin
    · refine hc.proc henv h fun who p ha hp => ?_
      subst ha
      exact hfork who p rfl hp
  | other hl =>
    refine forced (fun a ha => ?_) rfl .stay
    subst ha
    simp [Label.touches] at hl

theorem joined_of_reaches (h : JobReaches env cfg code tr s) (hwin : env.platform = .windows)
    (hfork : Lts.Along (jobStep env cfg code) (fun s l => membersFork s.world l = true)
      (JobWorld.init ι env) tr) (i : ι) : Joined tr (s.world.runs i) i := by
  refine Lts.exec_invariant_along (P := fun tr s => Joined tr (s.world.runs i) i) ?_ ?_ h hfork
  · have hmain : (Run.init env).main = .spawn .createJob := by
      simp [Run.init, SpawnPc.entry, hwin]
    refine ⟨fun pid hm => ?_, by simp⟩
    cases hmain.symm.trans hm
  · intro tr s l s' _ hj hmember hstep
    obtain ⟨w, hw', rfl⟩ := Option.map_eq_some_iff.mp hstep
    have hnext := joined_move (runMove_of_step hw' i) hwin (fun who p hl hproc => by
      subst hl
      simpa [membersFork, hproc] using hmember) hj
    refine ⟨fun pid hm => ?_, fun hin => ?_⟩
    · rw [closeJobs_main] at hm
      obtain ⟨hleader, hkids⟩ := hnext.alone pid hm
      exact ⟨closeJobs_forced.leader.trans hleader, kids_nil_of_forced closeJobs_forced hkids⟩
    · obtain ⟨hm, hcontained⟩ := hnext.joined hin
      exact ⟨fun s hs => hm s (closeJobs_main.symm.trans hs), hcontained.forced closeJobs_forced⟩

/-- Only a job that has been made is joined. -/
theorem made_of_joined (h : JobReaches env cfg code tr s) (hwin : env.platform = .windows)
    (hjoined : joinsJob i ∈ tr) : makesJob i ∈ tr := by
  obtain ⟨l₁, l₂, s₁, s₂, rfl, h₁, hstep, -⟩ := Lts.exec_of_mem h hjoined
  obtain ⟨tr', hw⟩ := reaches_of_jobReaches h₁
  obtain ⟨w, hw', -⟩ := Option.map_eq_some_iff.mp hstep
  have hinv := jobInv_of_reaches h₁ hwin i
  have huse : (joinsJob i).usesJob i = true := by simp [Label.usesJob, joinsJob]
  obtain ⟨o, ho⟩ := exists_owner_of_use (guarded_of_reaches hw) hwin hw' huse hinv.owned
  by_contra hmade
  rw [hinv.fresh fun hin => hmade (List.mem_append_left _ hin)] at ho
  simp [Counted.fresh] at ho

/-- **No orphan on Windows, refused terminations or not**: when the root has joined its job,
and no process was created by one that is outside, everything is dead as soon as nobody owns
the job any more. -/
theorem no_orphan_once_let_go (h : JobReaches env cfg code tr s) (hwin : env.platform = .windows)
    (hfork : Lts.Along (jobStep env cfg code) (fun s l => membersFork s.world l = true)
      (JobWorld.init ι env) tr)
    (hjoined : joinsJob i ∈ tr) (hgo : s.world.LetGo i) :
    (s.world.runs i).tree.dead = true := by
  obtain ⟨-, hcontained⟩ := (joined_of_reaches h hwin hfork i).joined hjoined
  have hinv := jobInv_of_reaches h hwin i
  have hmade := made_of_joined h hwin hjoined
  have hempty := (hinv.owned.empty_iff fun hm => hinv.begun hm hmade).mpr hgo
  rcases hinv.made hmade with hopen | hclosed
  · simp [Counted.Open, hempty] at hopen
  · exact hcontained.dead (groupLive_of_closed h hwin hclosed.2)

end Life

/-! ### A run whose terminations are refused -/

/-- Windows, with operations on the job refused. -/
def Env.win32Refused : Env := ⟨.windows, false, true, 65536⟩

/-- The root leaves a process behind, which has closed its output. -/
def leftoverRun : List (Label Unit) :=
  [.main () (.spawn (.createJob (.ok ()))), .main () (.spawn (.setInfo (.ok ()))),
    .main () (.spawn (.command (.ok 7))), .main () (.spawn (.assign (.ok ()))),
    .main () .started, .main () .startedReturns, .main () (.startMonitor true),
    .main () .callWait, .wait () (.startOut true), .wait () (.startErr true),
    .proc () (.fork .root), .proc () (.close (.kid 0) .stdout),
    .proc () (.close (.kid 0) .stderr), .proc () (.rootExit (some 0)),
    .wait () (.childWait (.ok ()))]

/-- The call that `wait` makes on the job is refused. -/
def refusedTermination : Label Unit := .wait () (.killTree (.error (.os 5)))

/-- The rest of the run. -/
def refusedRun : List (Label Unit) :=
  leftoverRun ++ [refusedTermination, Label.drain () .stdout (.read .eof),
    .drain () .stderr (.read .eof), .wait () .joinOut, .wait () .joinErr, .main () .waitReturned,
    .main () .stopMonitor, .main () (.loadTimedOut false), .main () (.loadKillFired false),
    .main () .exited, .main () .exitedReturns, .main () .dropLocals]

theorem leftoverRun_job_open_at_use :
    ∃ s s', JobReaches Env.win32Refused (fun _ => ⟨none, false, false⟩) (some 0) leftoverRun s ∧
      jobStep Env.win32Refused (fun _ => ⟨none, false, false⟩) (some 0) s refusedTermination =
        some s' ∧ (s.jobs ()).Open := by
  obtain ⟨s, hs, hnext⟩ : ∃ s, JobReaches Env.win32Refused (fun _ => ⟨none, false, false⟩) (some 0)
      leftoverRun s ∧ (jobStep Env.win32Refused (fun _ => ⟨none, false, false⟩) (some 0) s
        refusedTermination).isSome = true := Lts.exists_exec_of_any (by decide +kernel)
  obtain ⟨s', hs'⟩ := Option.isSome_iff_exists.mp hnext
  exact ⟨s, s', hs, hs', job_open_at_use hs rfl hs' rfl⟩

theorem refusedRun_job_runs_are_runs :
    ∃ s tr', JobReaches Env.win32Refused (fun _ => ⟨none, false, false⟩) (some 0) refusedRun s ∧
      Reaches Env.win32Refused (fun _ => ⟨none, false, false⟩) tr' s.world ∧
      refusedRun.Sublist tr' := by
  obtain ⟨s, hs, -⟩ : ∃ s, JobReaches Env.win32Refused (fun _ => ⟨none, false, false⟩) (some 0)
      refusedRun s ∧ (s.world.runs ()).main = .finished (.ret (.ok ())) :=
    Lts.exists_exec_of_any (by decide +kernel)
  obtain ⟨tr', hw, hsub, -⟩ := job_runs_are_runs hs
  exact ⟨s, tr', hs, hw, hsub⟩

theorem refusedRun_job_closed_iff :
    ∃ s, JobReaches Env.win32Refused (fun _ => ⟨none, false, false⟩) (some 0) refusedRun s ∧
      (s.world.runs ()).main = .finished (.ret (.ok ())) ∧ (s.jobs ()).releases = 1 ∧
      s.world.LetGo () ∧ (s.world.runs ()).tree.groupLive = false := by
  obtain ⟨s, hs, hm, hc⟩ : ∃ s, JobReaches Env.win32Refused (fun _ => ⟨none, false, false⟩) (some 0)
      refusedRun s ∧ (s.world.runs ()).main = .finished (.ret (.ok ())) ∧
        (s.jobs ()).releases = 1 := Lts.exists_exec_of_any (by decide +kernel)
  obtain ⟨-, hiff, hgone⟩ := job_closed_iff hs rfl ()
  exact ⟨s, hs, hm, hc, (hiff.mp hc).2, hgone hc⟩

theorem refusedRun_no_orphan_once_let_go :
    ∃ s, JobReaches Env.win32Refused (fun _ => ⟨none, false, false⟩) (some 0) refusedRun s ∧
      (s.world.runs ()).main = .finished (.ret (.ok ())) ∧
      (s.world.runs ()).tree.dead = true := by
  obtain ⟨s, hs, hm, hc⟩ : ∃ s, JobReaches Env.win32Refused (fun _ => ⟨none, false, false⟩) (some 0)
      refusedRun s ∧ (s.world.runs ()).main = .finished (.ret (.ok ())) ∧
        (s.jobs ()).releases = 1 := Lts.exists_exec_of_any (by decide +kernel)
  obtain ⟨hgo, -⟩ := (jobInv_of_reaches hs rfl ()).spawned_of_closed hc
  refine ⟨s, hs, hm, no_orphan_once_let_go hs rfl (by decide +kernel) ?_ hgo⟩
  decide

end AerCore
