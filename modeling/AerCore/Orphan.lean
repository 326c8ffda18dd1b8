import AerCore.Standing

/-!
# No orphan and no zombie

When `run_impl` has been left, by return or by unwinding, nothing of the spawned
tree runs any more.  Responsibility for that moves: `wait` kills the group after
the root has ended and disarms the guard with its answer; every other way out meets
the armed guard, which kills with a grace of zero and waits for the root.  It does so
once: a `waitpid` that a signal interrupts reaps nothing, and is not repeated.

On Unix the group holds the whole tree as long as descendants do not leave it.  On
Windows the job holds a process only if it was created by a member, and the root
becomes a member only after it has started to run: a process that the root creates
before that escapes the job for good.

## Main definitions

* `KillPc.Certain` — what a call of `kill_escalating` knows of the group.
* `Gone` — nothing runs in the group, and on Unix the root has been reaped.
* `CleanedUp` — the invariant, by the place of the run thread.
* `membersFork` — the condition on Windows.

## Main results

* `killEscalatingStep_certain` — a permitted kill leaves nothing running in the group.
* `no_orphan_and_no_zombie` — **on Unix, on every way out, nothing runs in the group, and
  the root is reaped unless the `waitpid` of the guard was interrupted**.
* `interruptedWaitpid_leaves_zombie` — otherwise.
* `no_orphan_on_windows` — on Windows, if only job members create processes.
* `process_created_before_assignment_survives` — if another process does.
-/

namespace AerCore

variable {ι : Type*}

/-! ### The kill -/

/-- The call has been told that the group does not exist. -/
def KillPc.Certain (t : Tree) : KillPc → Prop
  | .poll .pid | .killPid => t.groupExists = false
  | _ => True

theorem KillPc.Certain.mono {env : Env} {t t' : Tree} {k : KillPc} (h : TreeMove env t t')
    (hk : k.Certain t) : k.Certain t' := by
  cases k with
  | poll p =>
    cases p with
    | pid => exact h.groupExists hk
    | group | query => trivial
  | killPid => exact h.groupExists hk
  | _ => trivial

theorem groupExists_of_absent {env : Env} {t : Tree} (h : t.groupReply env .absent = true) :
    t.groupExists = false := by
  simpa [Tree.groupReply, Reply.fits] using h

theorem groupLive_of_not_exists {t : Tree} (h : t.groupExists = false) : t.groupLive = false :=
  (Tree.groupExists_eq_false_iff.mp h).1

theorem not_refused {env : Env} {t : Tree} {e : IoError} (hp : env.permitted = true)
    (h : t.groupReply env (.error e) = true) : False := by
  simp [Tree.groupReply, Reply.fits, hp] at h

/-- A kill that is not refused goes on until nothing runs in the group. -/
theorem KillMove.certain {env : Env} {grace : Grace} {t t' : Tree} {k k' : KillPc} {a : KillAct}
    (h : KillMove env grace t k a t' k') (hr : a.refused = false) (hk : k.Certain t) :
    k'.Certain t' ∧ ∀ res, k' = .done res → t'.groupLive = false := by
  cases h with
  | termPresent | termAbsent | termPid | probeAlive | sleep | expired =>
    exact ⟨trivial, fun res hres => by cases hres⟩
  | probeMore h =>
    obtain ⟨-, rfl, -, he⟩ := treeAliveStep_eq_more h
    exact ⟨he, fun res hres => by cases hres⟩
  | @probeDead p r h =>
    -- only a dead tree ends the poll
    refine ⟨trivial, fun _ _ => ?_⟩
    obtain rfl : r = .absent := by simpa using treeAliveStep_eq_answer h
    cases p with
    | group => simp [treeAliveStep] at h
    | pid => exact groupLive_of_not_exists hk
    | query => simpa [treeAliveStep, Reply.fits] using h
  | killPresent => exact ⟨trivial, fun _ _ => Tree.killGroup_groupLive t none⟩
  | killAbsent h => exact ⟨groupExists_of_absent h, fun res hres => by cases hres⟩
  | killPidPresent h =>
    exact ⟨trivial, fun _ _ =>
      (Tree.liveFrom_killRoot t none).groupLive (groupLive_of_not_exists hk)⟩
  | killPidFails h => exact ⟨trivial, fun _ _ => groupLive_of_not_exists hk⟩
  | terminate => exact ⟨trivial, fun _ _ => Tree.killGroup_groupLive t terminatedStatus⟩
  | termRefused | killRefused | terminateRefused => cases hr

theorem KillMove.refused_eq_false {env : Env} {grace : Grace} {t t' : Tree} {k k' : KillPc}
    {a : KillAct} (h : KillMove env grace t k a t' k') (hp : env.permitted = true) :
    a.refused = false := by
  cases h with
  | termRefused h | killRefused h => exact (not_refused hp h).elim
  | terminateRefused h => simp [Reply.fits, hp] at h
  | @terminate r _ hr =>
    cases r with
    | error e => exact absurd rfl (hr e)
    | _ => rfl
  | _ => rfl

/-- A permitted kill goes on until nothing runs in the group. -/
theorem killEscalatingStep_certain {env : Env} {grace : Grace} {t t' : Tree} {k k' : KillPc}
    {a : KillAct} (hp : env.permitted = true) (hk : k.Certain t)
    (h : killEscalatingStep env grace t k a = some (t', k')) :
    k'.Certain t' ∧ ∀ res, k' = .done res → t'.groupLive = false :=
  (killMove_of_step h).certain ((killMove_of_step h).refused_eq_false hp) hk

/-! ### Who cleans up -/

/-- Nothing runs in the group, and on Unix the root has been reaped. -/
def Gone (env : Env) (t : Tree) : Prop :=
  t.groupLive = false ∧ (env.platform = .unix → t.rootReaped = true)

/-- Who is responsible for the tree, by the place of the run thread: a guard that is not
armed has nothing left to do, and one that is kills the group. -/
def CleanedUp (env : Env) (r : Run) : MainPc → Prop
  | .spawn _ => True
  | .guardKill k _ => k.Certain r.tree
  | .guardReap _ => r.tree.groupLive = false
  | .finished o => (∀ e, o ≠ .ret (.error (.spawnFailed e))) → r.tree.groupLive = false
  | _ => r.armed = false → Gone env r.tree

section Moves

variable {env : Env} {c : RunConfig} {i : ι} {hd hd' : CancelHandle ι} {r r' : Run}
  {l : Label ι}

theorem rootReaped_iff {t : Tree} : t.rootReaped = true ↔ ∃ status, t.root = .reaped status := by
  unfold Tree.rootReaped
  split
  · next status h => simp [h]
  · next h =>
    simp only [Bool.false_eq_true, false_iff, not_exists]
    exact h

theorem TreeMove.rootReaped {t t' : Tree} (h : TreeMove env t t') (hr : t.rootReaped = true) :
    t'.rootReaped = true := by
  obtain ⟨status, hs⟩ := rootReaped_iff.mp hr
  exact rootReaped_iff.mpr ⟨status, h.reaped hs⟩

theorem Gone.mono {t t' : Tree} (h : TreeMove env t t') (hg : Gone env t) : Gone env t' :=
  ⟨h.live.groupLive hg.1, fun hu => h.rootReaped (hg.2 hu)⟩

theorem CleanedUp.mono {m : MainPc} (h : TreeMove env r.tree r'.tree) (ha : r'.armed = r.armed)
    (hc : CleanedUp env r m) : CleanedUp env r' m := by
  cases m with
  | spawn => trivial
  | guardKill k o => exact KillPc.Certain.mono h hc
  | guardReap => exact h.live.groupLive hc
  | finished o => exact fun ho => h.live.groupLive (hc ho)
  | _ => exact fun harmed => (hc (ha ▸ harmed)).mono h

theorem rootReaped_of_reapAbandoned {t t' : Tree} (h : reapAbandoned env t .returned = some t')
    (hu : env.platform = .unix) : t'.rootReaped = true := by
  simp only [reapAbandoned, hu, Tree.reapRoot] at h
  split at h
  · cases h; rfl
  · next hr => cases h; exact rootReaped_iff.mpr ⟨_, hr⟩
  · cases h
  · cases h

/-- An answer of `wait` relieves the guard of its duty. -/
theorem cleanedUp_afterWait {res : Except AerError ℤ} (hp : env.permitted = true)
    (hc : r.armed = false → Gone env r.tree) (ha : WaitAnswer env r.tree r.output res) :
    CleanedUp env (r.afterWait c res) (r.afterWait c res).main := by
  cases res with
  | ok code =>
    obtain ⟨⟨status, hr, -⟩, hq, -⟩ := ha
    have hgone : Gone env r.tree := ⟨hq hp, fun _ => rootReaped_iff.mpr ⟨status, hr⟩⟩
    simp only [Run.afterWait]
    split <;> exact fun _ => hgone
  | error e => exact hc

theorem MainMove.cleanedUp {a : MainAct} (h : MainMove env c i hd r a hd' r')
    (hp : env.permitted = true) (ha : Answered env r) (hc : CleanedUp env r r.main) :
    CleanedUp env r' r'.main := by
  cases h with
  | spawnMore => trivial
  | spawnOk => exact fun harmed => by cases harmed
  | spawnFailed => exact fun ho => absurd rfl (ho _)
  | killMore pc h | killDone pc h =>
    rw [pc] at hc
    exact fun harmed => Gone.mono (.forced (forcedMove_of_killEscalating h)) (hc harmed)
  | startedReturns pc | loadCancelled pc | loadFired pc =>
    rw [pc] at hc
    simp only
    split <;> exact hc
  | startMonitor pc | noMonitor pc =>
    rw [pc] at hc
    simp only [RunConfig.afterMonitor]
    split <;> exact hc
  | @joinWait res pc =>
    rw [pc] at hc
    exact cleanedUp_afterWait hp hc (ha.main res (by rw [pc]; rfl)).2
  | waitReturned pc returned =>
    rw [pc] at hc
    have hw := ha.wait
    rw [returned] at hw
    exact cleanedUp_afterWait hp hc hw
  | dropLocals pc =>
    rw [pc] at hc
    simp only
    split
    · cases env.platform <;> trivial
    · next harmed => exact fun _ => (hc (Bool.eq_false_iff.mpr harmed)).1
  | guardMore pc h =>
    rw [pc] at hc
    exact (killEscalatingStep_certain hp hc h).1
  | guardDone pc h =>
    rw [pc] at hc
    exact (killEscalatingStep_certain hp hc h).2 _ rfl
  | guardReap pc h =>
    rw [pc] at hc
    exact fun _ => (forcedMove_of_reapAbandoned h).live.groupLive hc
  | _ pc =>
    rw [pc] at hc
    exact hc

theorem cleanedUp_move [DecidableEq ι] (h : RunMove env c i hd r l r')
    (hp : env.permitted = true) (ha : Answered env r) (hc : CleanedUp env r r.main) :
    CleanedUp env r' r'.main := by
  have htree := h.tree
  cases h with
  | main h => exact h.cleanedUp hp ha hc
  | monitor h =>
    rw [h.main_eq]
    exact hc.mono (htree (by simp)) (by cases h <;> rfl)
  | wait | drain | proc | cancelKill => exact CleanedUp.mono (r := r) (htree (by simp)) rfl hc
  | other => exact hc

/-- A run that has left `spawn` does not come back, and its tree changes by moves only. -/
theorem RunMove.born [DecidableEq ι] (h : RunMove env c i hd r l r')
    (hs : ∀ s, r.main ≠ .spawn s) :
    (∀ s, r'.main ≠ .spawn s) ∧ TreeMove env r.tree r'.tree := by
  refine ⟨fun s hs' => ?_, h.tree fun a ha => ?_⟩
  · cases h with
    | main h =>
      obtain ⟨⟨s₀, hs₀⟩, -⟩ := (hs' ▸ h.edge).of_spawn
      exact hs s₀ hs₀
    | monitor h => exact hs s (h.main_eq ▸ hs')
    | wait | drain | proc | cancelKill | other => exact hs s hs'
  · subst ha
    cases h with
    | main h =>
      obtain ⟨s, hs₀⟩ := h.edge.spawning
      exact hs s hs₀
    | other hl => simp [Label.touches] at hl

/-- Only `wait` and the `waitpid` of the guard reap the root. -/
theorem RunMove.reaper [DecidableEq ι] (h : RunMove env c i hd r l r')
    (hu : env.platform = .unix) (hroot : Rooted r) (hfrom : r.tree.rootReaped = false)
    (hto : r'.tree.rootReaped = true) :
    l = .wait i (.childWait (.ok ())) ∨ l = .main i (.guardReap .returned) := by
  have hsame : r'.tree.rootReaped ≠ r.tree.rootReaped := by simp [hfrom, hto]
  cases h with
  | main h =>
    cases h with
    | spawnMore pc h | spawnOk pc h | spawnFailed pc h =>
      obtain rfl := hroot.spawning _ pc
      rcases spawnStep_unix hu h with ⟨-, rfl⟩ | ⟨-, rfl⟩
      · exact absurd rfl hsame
      · cases hto
    | killMore _ h | killDone _ h | guardMore _ h | guardDone _ h =>
      exact absurd (rootReaped_of_killEscalating h) hsame
    | guardReap _ h =>
      obtain ⟨-, rfl, -⟩ | rfl := reapAbandoned_cases h
      · exact .inr rfl
      · exact absurd rfl hsame
    | @joinWait res | @waitReturned res => cases res <;> exact absurd rfl hsame
    | _ => exact absurd rfl hsame
  | monitor h =>
    cases h with
    | killMore _ h | killDone _ h => exact absurd (rootReaped_of_killEscalating h) hsame
    | _ => exact absurd rfl hsame
  | wait h =>
    cases h with
    | childWait => exact .inl rfl
    | killTree _ h => exact absurd (rootReaped_of_killTree h) hsame
    | _ => exact absurd rfl hsame
  | drain h =>
    cases h with
    | readBytes => exact absurd (by simp [Tree.rootReaped]) hsame
    | _ => exact absurd rfl hsame
  | proc h =>
    rcases procStep_root h with hx | ⟨-, status, hx⟩
    · exact absurd (by simp [Tree.rootReaped, hx]) hsame
    · simp [Tree.rootReaped, hx] at hto
  | cancelKill h => exact absurd (rootReaped_of_killEscalating h) hsame
  | other => exact absurd rfl hsame

end Moves

/-! ### What the group holds -/

/-- Every process of the tree is in the group. -/
def Tree.Contained (t : Tree) : Prop :=
  t.leader.inGroup = true ∧ ∀ p ∈ t.kids, p.inGroup = true

/-- What has become of the tree while `spawn` runs.  The steps other than
`Command::spawn` are those of Windows; until it is assigned, the root is outside the
job. -/
def SpawnPc.Encloses (env : Env) (t : Tree) : SpawnPc → Prop
  | .command => t.dead = true
  | .createJob | .setInfo | .waitChild _ => env.platform = .windows ∧ t.dead = true
  | .assign _ | .killChild _ =>
      env.platform = .windows ∧ t.leader.inGroup = false ∧ t.kids = []

/-- The tree is dead or in the group, and it is dead when the run has ended. -/
def Enclosed (env : Env) (t : Tree) : MainPc → Prop
  | .spawn s => s.Encloses env t
  | .finished _ => t.dead = true
  | _ => t.dead = true ∨ t.Contained

section Enclosed

variable {env : Env} {c : RunConfig} {i : ι} {hd hd' : CancelHandle ι} {r r' : Run}
  {l : Label ι} {t t' : Tree}

/-- A tree whose processes are all in a group in which nothing runs is dead. -/
theorem Tree.Contained.dead (hc : t.Contained) (hl : t.groupLive = false) : t.dead = true := by
  rw [Tree.dead_iff]
  intro who
  cases hp : t.proc? who with
  | none => rfl
  | some p =>
    have hin : p.inGroup = true := by
      cases who with
      | root =>
        obtain ⟨-, rfl⟩ := Tree.proc?_root_eq_some.mp hp
        exact hc.1
      | kid n => exact hc.2 p (Tree.proc?_kid_mem hp)
    rw [Tree.groupLive_iff.mpr ⟨who, p, hp, hin⟩] at hl
    cases hl

theorem dead_of_enclosed (h : t.dead = true ∨ t.Contained) (hl : t.groupLive = false) :
    t.dead = true :=
  h.elim id fun hc => hc.dead hl

/-- Descendants do not leave the group: the environment says so, or there is no way to. -/
def Env.keepsGroup (env : Env) : Prop := env.platform = .unix → env.closed = true

/-- Where a live descendant comes from: it was there, or it was created by this step. -/
theorem procStep_kid_mem {a : ProcAct} (h : procStep env t a = some t') {q : Proc}
    (hq : q ∈ t'.kids) :
    (∃ p ∈ t.kids, q.inGroup = p.inGroup) ∨ (∃ who, a = .fork who ∧ t.proc? who = some q) ∨
      (env.platform = .unix ∧ env.closed = false ∧ ∃ p, p ∈ t.kids) := by
  cases a with
  | rootExit status | kidReap =>
    obtain ⟨-, h⟩ := Option.ite_none_right_eq_some.mp h
    cases h
    exact .inl ⟨q, hq, rfl⟩
  | fork who =>
    obtain ⟨p, hp, rfl⟩ := Option.map_eq_some_iff.mp h
    rcases List.mem_append.mp hq with hq | hq
    · exact .inl ⟨q, hq, rfl⟩
    · obtain rfl := List.mem_singleton.mp hq
      exact .inr (.inl ⟨who, rfl, hp⟩)
  | kidExit n =>
    obtain ⟨p, -, rfl⟩ := Option.map_eq_some_iff.mp h
    exact .inl ⟨q, List.mem_of_mem_eraseIdx hq, rfl⟩
  | leave n =>
    obtain ⟨⟨hu, hclosed⟩, h⟩ := Option.ite_none_right_eq_some.mp h
    obtain ⟨p, hp, rfl⟩ := Option.map_eq_some_iff.mp h
    exact .inr (.inr ⟨hu, hclosed, p, List.mem_of_getElem? hp⟩)
  | close who s =>
    obtain ⟨p, hp, rfl⟩ := Option.map_eq_some_iff.mp h
    cases who with
    | root => exact .inl ⟨q, hq, rfl⟩
    | kid n =>
      rcases List.mem_or_eq_of_mem_set hq with hq | rfl
      · exact .inl ⟨q, hq, rfl⟩
      · exact .inl ⟨p, Tree.proc?_kid_mem hp, by cases s <;> rfl⟩
  | write who s bytes =>
    simp only [procStep] at h
    split at h
    · cases h
    · obtain ⟨-, h⟩ := Option.ite_none_right_eq_some.mp h
      cases h
      rw [Tree.setBuf_kids] at hq
      exact .inl ⟨q, hq, rfl⟩

/-- New processes are in the group if their parents are. -/
theorem Tree.Contained.proc (henv : env.keepsGroup) {a : ProcAct}
    (h : procStep env t a = some t')
    (hfork : ∀ who p, a = .fork who → t.proc? who = some p → p.inGroup = true)
    (hc : t.Contained) : t'.Contained := by
  refine ⟨(procStep_leader h).trans hc.1, fun q hq => ?_⟩
  rcases procStep_kid_mem h hq with ⟨p, hp, hin⟩ | ⟨who, ha, hp⟩ | ⟨hu, hclosed, -⟩
  · rw [hin]
    exact hc.2 p hp
  · exact hfork who q ha hp
  · rw [henv hu] at hclosed
    cases hclosed

/-- A root that creates no process has no descendants. -/
theorem procStep_kids_nil {a : ProcAct} (h : procStep env t a = some t')
    (hfork : a = .fork .root → t.proc? .root = none) (hk : t.kids = []) : t'.kids = [] := by
  rw [List.eq_nil_iff_forall_not_mem]
  intro q hq
  rcases procStep_kid_mem h hq with ⟨p, hp, -⟩ | ⟨who, ha, hp⟩ | ⟨-, -, p, hp⟩
  · simp [hk] at hp
  · cases who with
    | root => rw [hfork ha] at hp; cases hp
    | kid n => simp [Tree.proc?, hk] at hp
  · simp [hk] at hp

/-- What is left after a forced move was in the group before. -/
theorem Tree.Contained.forced (h : ForcedMove t t') (hc : t.Contained) : t'.Contained :=
  ⟨h.leader.trans hc.1, fun p hp => hc.2 p (h.kids p hp)⟩

theorem kids_nil_of_forced (h : ForcedMove t t') (hk : t.kids = []) : t'.kids = [] := by
  rw [List.eq_nil_iff_forall_not_mem]
  intro p hp
  have := h.kids p hp
  simp [hk] at this

/-- The enclosure survives a step of a process, if only members of the group create
processes. -/
theorem Enclosed.proc {m : MainPc} {a : ProcAct} (h : procStep env t a = some t')
    (henv : env.keepsGroup)
    (hfork : ∀ who p, a = .fork who → t.proc? who = some p → p.inGroup = true)
    (he : Enclosed env t m) : Enclosed env t' m := by
  have hdead : t.dead = true → t'.dead = true := (procStep_live h).dead
  have hnil : t.leader.inGroup = false ∧ t.kids = [] →
      t'.leader.inGroup = false ∧ t'.kids = [] := by
    rintro ⟨hl, hk⟩
    refine ⟨(procStep_leader h).trans hl, procStep_kids_nil h (fun ha => ?_) hk⟩
    -- the root is outside the job, so it creates nothing
    cases hp : t.proc? .root with
    | none => rfl
    | some p =>
      have hin := hfork .root p ha hp
      obtain ⟨-, rfl⟩ := Tree.proc?_root_eq_some.mp hp
      rw [hl] at hin
      cases hin
  cases m with
  | spawn s =>
    cases s with
    | command => exact hdead he
    | createJob | setInfo | waitChild => exact ⟨he.1, hdead he.2⟩
    | assign | killChild => exact ⟨he.1, hnil he.2⟩
  | finished => exact hdead he
  | _ => exact he.imp hdead fun hc => hc.proc henv h hfork

theorem Enclosed.forced {m : MainPc} (h : ForcedMove t t') (he : Enclosed env t m) :
    Enclosed env t' m := by
  have hdead : t.dead = true → t'.dead = true := h.live.dead
  cases m with
  | spawn s =>
    cases s with
    | command => exact hdead he
    | createJob | setInfo | waitChild => exact ⟨he.1, hdead he.2⟩
    | assign | killChild =>
      exact ⟨he.1, h.leader.trans he.2.1, kids_nil_of_forced h he.2.2⟩
  | finished => exact hdead he
  | _ => exact he.imp hdead fun hc => hc.forced h

theorem dead_of_kids_nil (hk : t.kids = []) (status : Option ℤ) :
    (t.killRoot status).dead = true := by
  unfold Tree.killRoot
  split
  · simp [Tree.dead, Tree.rootLive, hk]
  · next hl => simpa [Tree.dead, hk] using hl

/-- What a step of `spawn` leaves behind. -/
theorem spawnStep_encloses {s : SpawnPc} {a : SpawnAct} {n : SpawnNext} (hp : env.permitted = true)
    (h : spawnStep env t s a = some (t', n)) (he : s.Encloses env t) :
    match n with
    | .more s' => s'.Encloses env t'
    | .ok _ => t'.Contained
    | .failed _ => t'.dead = true := by
  unfold spawnStep at h
  split at h
  · next r => cases r <;> cases h <;> first | exact he | exact he.2
  · next r => cases r <;> cases h <;> first | exact he.2
  · next r =>
    cases r with
    | error e => cases h; exact he
    | ok pid =>
      cases hpl : env.platform <;> rw [hpl] at h <;> cases h
      · exact ⟨rfl, fun p hp => by cases hp⟩
      · exact ⟨hpl, rfl, rfl⟩
  · next r =>
    obtain ⟨hw, hl, hk⟩ := he
    cases r with
    | ok u => cases h; exact ⟨rfl, by simp [hk]⟩
    | error e => cases h; exact ⟨hw, hl, hk⟩
  · next r =>
    obtain ⟨hw, hl, hk⟩ := he
    obtain ⟨hr, h⟩ := Option.ite_none_right_eq_some.mp h
    cases r with
    | present => cases h; exact ⟨hw, dead_of_kids_nil hk _⟩
    | absent => cases hr
    | error e => simp [Reply.fits, hp] at hr
  · next r =>
    cases r with
    | ok u =>
      obtain ⟨t₁, ht, h⟩ := Option.map_eq_some_iff.mp h
      cases h
      exact (forcedMove_of_reapRoot ht).live.dead he.2
    | error e => cases h; exact he.2
  · cases h

/-- The run thread leaves `run_impl` only when the tree is dead. -/
theorem MainMove.enclosed {a : MainAct} (h : MainMove env c i hd r a hd' r')
    (hp : env.permitted = true) (hc : CleanedUp env r r.main) (he : Enclosed env r.tree r.main) :
    Enclosed env r'.tree r'.main := by
  cases h with
  | spawnMore pc h | spawnFailed pc h =>
    rw [pc] at he
    exact spawnStep_encloses hp h he
  | spawnOk pc h =>
    rw [pc] at he
    exact .inr (spawnStep_encloses hp h he)
  | dropLocals pc =>
    rw [pc] at he hc
    simp only
    split
    · exact he
    · next harmed => exact dead_of_enclosed he (hc (Bool.eq_false_iff.mpr harmed)).1
  | guardReap pc h =>
    rw [pc] at he hc
    exact (forcedMove_of_reapAbandoned h).live.dead (dead_of_enclosed he hc)
  | startedReturns pc | loadCancelled pc | loadFired pc =>
    rw [pc] at he
    simp only
    split <;> exact he
  | startMonitor pc | noMonitor pc =>
    rw [pc] at he
    simp only [RunConfig.afterMonitor]
    split <;> exact he
  | @joinWait res pc | @waitReturned res pc =>
    rw [pc] at he
    cases res with
    | ok code => simp only [Run.afterWait]; split <;> exact he
    | error e => exact he
  | killMore pc h | killDone pc h | guardMore pc h | guardDone pc h =>
    rw [pc] at he
    exact Enclosed.forced (forcedMove_of_killEscalating h) he
  | _ pc =>
    rw [pc] at he
    exact he

theorem enclosed_move [DecidableEq ι] (h : RunMove env c i hd r l r')
    (hp : env.permitted = true) (henv : env.keepsGroup)
    (hfork : ∀ who p, l = .proc i (.fork who) → r.tree.proc? who = some p → p.inGroup = true)
    (hc : CleanedUp env r r.main) (he : Enclosed env r.tree r.main) :
    Enclosed env r'.tree r'.main := by
  have forced := h.forced
  cases h with
  | main h => exact h.enclosed hp hc he
  | monitor h =>
    rw [h.main_eq]
    exact he.forced (forced (by simp) (by simp))
  | wait | drain | cancelKill => exact Enclosed.forced (forced (by simp) (by simp)) he
  | proc h =>
    refine Enclosed.proc h henv (fun who p ha hp => ?_) he
    subst ha
    exact hfork who p rfl hp
  | other => exact he

end Enclosed

/-! ### Whole runs -/

section Runs

variable [DecidableEq ι] {env : Env} {cfg : ι → RunConfig} {tr : List (Label ι)} {w : World ι}

theorem cleanedUp_of_reaches (h : Reaches env cfg tr w) (hp : env.permitted = true) (i : ι) :
    CleanedUp env (w.runs i) (w.runs i).main := by
  refine Lts.exec_invariant (P := fun _ w => CleanedUp env (w.runs i) (w.runs i).main) ?_ ?_ h
  · trivial
  · intro _ w l w' hw hc hstep
    exact cleanedUp_move (runMove_of_step hstep i) hp (answered_of_reaches hw i) hc

theorem enclosed_init (env : Env) : Enclosed env (Run.init env).tree (Run.init env).main := by
  cases hpl : env.platform with
  | unix => simp [Run.init, SpawnPc.entry, hpl, Enclosed, SpawnPc.Encloses]; rfl
  | windows => simp [Run.init, SpawnPc.entry, hpl, Enclosed, SpawnPc.Encloses]; rfl

/-- On Unix a process of an enclosed tree is in the group. -/
theorem Enclosed.inGroup {t : Tree} {m : MainPc} (hu : env.platform = .unix)
    (he : Enclosed env t m) {who : Who} {p : Proc} (hp : t.proc? who = some p) :
    p.inGroup = true := by
  have hdead : t.dead = true → p.inGroup = true := fun hd => by
    rw [Tree.dead_iff.mp hd who] at hp
    cases hp
  have hcont : t.dead = true ∨ t.Contained → p.inGroup = true := by
    rintro (hd | ⟨hl, hk⟩)
    · exact hdead hd
    · cases who with
      | root =>
        obtain ⟨-, rfl⟩ := Tree.proc?_root_eq_some.mp hp
        exact hl
      | kid n => exact hk p (Tree.proc?_kid_mem hp)
  cases m with
  | spawn s =>
    cases s with
    | command => exact hdead he
    | createJob | setInfo | waitChild | assign | killChild =>
      have hw := he.1
      rw [hu] at hw
      cases hw
  | finished => exact hdead he
  | _ => exact hcont he

theorem enclosed_of_unix (h : Reaches env cfg tr w) (hu : env.platform = .unix)
    (hp : env.permitted = true) (hclosed : env.closed = true) (i : ι) :
    Enclosed env (w.runs i).tree (w.runs i).main := by
  refine Lts.exec_invariant (P := fun _ w => Enclosed env (w.runs i).tree (w.runs i).main) ?_ ?_ h
  · exact enclosed_init env
  · intro _ w l w' hw he hstep
    exact enclosed_move (runMove_of_step hstep i) hp (fun _ => hclosed)
      (fun who p _ hproc => he.inGroup hu hproc) (cleanedUp_of_reaches hw hp i) he

/-- The root is reaped by `wait`, or by the guard. -/
theorem reaper_of_rootReaped (h : Reaches env cfg tr w) (hu : env.platform = .unix) {i : ι}
    (hr : (w.runs i).tree.rootReaped = true) :
    .wait i (.childWait (.ok ())) ∈ tr ∨ .main i (.guardReap .returned) ∈ tr := by
  refine Lts.exec_invariant (P := fun tr w => (w.runs i).tree.rootReaped = true →
    .wait i (.childWait (.ok ())) ∈ tr ∨ .main i (.guardReap .returned) ∈ tr) ?_ ?_ h hr
  · intro hr
    cases hr
  · intro tr w l w' hw ih hstep hr
    cases hfrom : (w.runs i).tree.rootReaped with
    | true => exact (ih hfrom).imp (List.mem_append_left _) (List.mem_append_left _)
    | false =>
      rcases (runMove_of_step hstep i).reaper hu (rooted_of_reaches hw hu i) hfrom hr with rfl | rfl
      · exact .inl (by simp)
      · exact .inr (by simp)

/-- A root that `wait` has reaped stays so. -/
theorem rootReaped_of_childWait (h : Reaches env cfg tr w) {i : ι}
    (hwait : .wait i (.childWait (.ok ())) ∈ tr) : (w.runs i).tree.rootReaped = true := by
  refine (Lts.exec_invariant (P := fun tr w => .wait i (.childWait (.ok ())) ∈ tr →
    (∀ s, (w.runs i).main ≠ .spawn s) ∧ (w.runs i).tree.rootReaped = true) ?_ ?_ h hwait).2
  · intro hwait
    cases hwait
  · intro tr w l w' hw ih hstep hwait
    have hmove := runMove_of_step hstep i
    rcases List.mem_append.mp hwait with hold | hnew
    · obtain ⟨hs, hr⟩ := ih hold
      exact ⟨(hmove.born hs).1, (hmove.born hs).2.rootReaped hr⟩
    · obtain rfl := List.mem_singleton.mp hnew
      have hun := unstarted_of_reaches hw i
      generalize w'.runs i = r' at hmove
      cases hmove with
      | wait hx =>
        cases hx with
        | childWait pc =>
          refine ⟨fun s hs => ?_, rfl⟩
          rw [hun s hs] at pc
          cases pc
      | other hl => simp [Label.touches] at hl

/-- The guard calls `waitpid` once, and then the run thread has left. -/
theorem guardReap_once (h : Reaches env cfg tr w) {i : ι} {x y : WaitpidReply}
    (hx : .main i (.guardReap x) ∈ tr) (hy : .main i (.guardReap y) ∈ tr) : x = y := by
  refine (Lts.exec_invariant (P := fun tr w => ∀ x, .main i (.guardReap x) ∈ tr →
    (∃ o, (w.runs i).main = .finished o) ∧ ∀ y, .main i (.guardReap y) ∈ tr → x = y)
    ?_ ?_ h x hx).2 y hy
  · intro x hx
    cases hx
  · intro tr w l w' hw ih hstep x hx
    rcases mainMove_or_stays hstep i with ⟨a, rfl, hmain⟩ | ⟨hne, hmain⟩
    · -- a run thread that still moves has not called it yet
      have hnone : ∀ z, .main i (.guardReap z) ∉ tr := fun z hz =>
        (ih z hz).1.elim fun o ho => hmain.edge.not_finished o ho
      have hlast : ∀ z, .main i (.guardReap z) ∈ tr ++ [.main i a] → a = .guardReap z := by
        intro z hz
        simpa [hnone z, eq_comm] using hz
      obtain rfl := hlast x hx
      refine ⟨?_, fun y hy => by simpa using hlast y hy⟩
      have hedge := hmain.edge
      generalize (w.runs i).main = m, (w'.runs i).main = m' at hedge ⊢
      cases hedge
      exact ⟨_, rfl⟩
    · have hold : ∀ z, .main i (.guardReap z) ∈ tr ++ [l] → .main i (.guardReap z) ∈ tr := by
        intro z hz
        simpa [(hne (.guardReap z)).symm] using hz
      rw [hmain]
      exact ⟨(ih x (hold x hx)).1, fun y hy => (ih x (hold x hx)).2 y (hold y hy)⟩

/-- A root that the guard leaves behind is one whose `waitpid` was interrupted. -/
theorem reaped_or_interrupted (h : Reaches env cfg tr w) (hu : env.platform = .unix)
    (hp : env.permitted = true) {i : ι} {o : Outcome} (hfin : (w.runs i).main = .finished o)
    (hspawn : ∀ e, o ≠ .ret (.error (.spawnFailed e))) :
    (w.runs i).tree.rootReaped = true ∨ .main i (.guardReap .interrupted) ∈ tr := by
  refine Lts.exec_invariant (P := fun tr w => (w.runs i).main = .finished o →
    (w.runs i).tree.rootReaped = true ∨ .main i (.guardReap .interrupted) ∈ tr) ?_ ?_ h hfin
  · intro hfin
    cases hfin
  · intro tr w l w' hw ih hstep hfin
    rcases mainMove_or_stays hstep i with ⟨a, rfl, hmain⟩ | ⟨hne, hmain⟩
    · have hc := cleanedUp_of_reaches hw hp i
      generalize w'.runs i = r', w'.handle = hd' at hmain hfin ⊢
      rcases (hfin ▸ hmain.edge).finished with ⟨b, rfl⟩ | rfl | ⟨x, rfl⟩
      · cases hmain with
        | spawnFailed => cases hfin; exact absurd rfl (hspawn _)
        | spawnMore | spawnOk => cases hfin
      · -- the guard was disarmed with an answer of `wait`
        cases hmain with
        | dropLocals pc =>
          rw [pc] at hc
          simp only at hfin
          split at hfin
          · cases hfin
          · next harmed => exact .inl ((hc (Bool.eq_false_iff.mpr harmed)).2 hu)
      · cases hmain with
        | guardReap _ hreap =>
          cases x with
          | returned => exact .inl (rootReaped_of_reapAbandoned hreap hu)
          | interrupted => exact .inr (by simp)
    · rw [hmain] at hfin
      have hs : ∀ s, (w.runs i).main ≠ .spawn s := by simp [hfin]
      exact (ih hfin).imp ((runMove_of_step hstep i).born hs).2.rootReaped (List.mem_append_left _)

/-- **No orphan on Unix, and a zombie only after an interrupted `waitpid`.**  On every way
out of `run_impl` after a successful spawn nothing of the tree runs any more, and the root
has been reaped unless a signal has interrupted the `waitpid` of the guard and `wait` has
not reaped it either. -/
theorem no_orphan_and_no_zombie (h : Reaches env cfg tr w) (hunix : env.platform = .unix)
    (hpermitted : env.permitted = true) (hclosed : env.closed = true) {i : ι} {o : Outcome}
    (hfin : (w.runs i).main = .finished o) (hspawn : ∀ e, o ≠ .ret (.error (.spawnFailed e))) :
    (w.runs i).tree.dead = true ∧ (w.runs i).tree.groupLive = false ∧
      ((w.runs i).tree.rootReaped = true ↔
        .main i (.guardReap .interrupted) ∉ tr ∨ .wait i (.childWait (.ok ())) ∈ tr) := by
  have he := enclosed_of_unix h hunix hpermitted hclosed i
  have hc := cleanedUp_of_reaches h hpermitted i
  rw [hfin] at he hc
  refine ⟨he, hc hspawn, fun hr => ?_, ?_⟩
  · refine (reaper_of_rootReaped h hunix hr).symm.imp (fun hret hint => ?_) id
    cases guardReap_once h hret hint
  · rintro (hint | hwait)
    · exact (reaped_or_interrupted h hunix hpermitted hfin hspawn).resolve_right hint
    · exact rootReaped_of_childWait h hwait

/-- A zombie that the guard has left is there for good, if `wait` was never called. -/
theorem zombie_stays (h : Reaches env cfg tr w) (hu : env.platform = .unix) {i : ι} {o : Outcome}
    (hfin : (w.runs i).main = .finished o) (hidle : (w.runs i).waiter.pc = .idle)
    (hr : (w.runs i).tree.rootReaped = false) {later : List (Label ι)} {w' : World ι}
    (h' : Lts.exec (step env cfg) w later = some w') : (w'.runs i).tree.rootReaped = false := by
  refine (Lts.exec_invariant (P := fun _ w => (∃ tr, Reaches env cfg tr w) ∧
    (w.runs i).main = .finished o ∧ (w.runs i).waiter.pc = .idle ∧
      (w.runs i).tree.rootReaped = false) ?_ ?_ h').2.2.2
  · exact ⟨⟨tr, h⟩, hfin, hidle, hr⟩
  · rintro _ w l w' - ⟨⟨tr, h⟩, hfin, hidle, hr⟩ hstep
    have hreach : Reaches env cfg (tr ++ [l]) w' := Lts.exec_concat_eq_some.mpr ⟨w, h, hstep⟩
    have hmove := runMove_of_step hstep i
    have hreaper := hmove.reaper hu (rooted_of_reaches h hu i) hr
    generalize w'.runs i = r' at hmove hreaper ⊢
    refine ⟨⟨_, hreach⟩, ?_, ?_, ?_⟩
    · cases hmove with
      | main h => exact absurd hfin (h.edge.not_finished o)
      | monitor h => exact h.main_eq.trans hfin
      | wait | drain | proc | cancelKill | other => exact hfin
    · cases hmove with
      | main h => exact absurd hfin (h.edge.not_finished o)
      | monitor h => rw [h.waiter_eq]; exact hidle
      | wait h => exact absurd hidle h.pc_ne_idle
      | drain | proc | cancelKill | other => exact hidle
    · by_contra hto
      rcases hreaper (by simpa using hto) with rfl | rfl
      · cases hmove with
        | wait h => exact absurd hidle h.pc_ne_idle
        | other hl => simp [Label.touches] at hl
      · cases hmove with
        | main h => exact absurd hfin (h.edge.not_finished o)
        | other hl => simp [Label.touches] at hl

end Runs

/-- The callback panics at `Started`, and the root has already created a process; `x` is how
the `waitpid` of the guard comes back. -/
def panickedRun (x : WaitpidReply) : List (Label Unit) :=
  [.main () (.spawn (.command (.ok 7))), .main () .started, .proc () (.fork .root),
    .main () .startedPanics, .main () .dropLocals, .main () (.guardKill (.term .present)),
    .main () (.guardKill (.probe .present)), .main () (.guardKill (.clock true)),
    .main () (.guardKill (.kill .present)), .main () (.guardReap x)]

/-- It leaves nothing behind when `waitpid` returns. -/
theorem panickedRun_no_orphan_and_no_zombie :
    ∃ w, Reaches Env.posix (fun _ => ⟨none, false, false⟩) (panickedRun .returned) w ∧
      (w.runs ()).main = .finished .unwound ∧ (w.runs ()).tree.dead = true ∧
      (w.runs ()).tree.rootReaped = true := by
  obtain ⟨w, hw, hfin⟩ : ∃ w,
      Reaches Env.posix (fun _ => ⟨none, false, false⟩) (panickedRun .returned) w ∧
      (w.runs ()).main = .finished .unwound := Lts.exists_exec_of_any (by decide +kernel)
  obtain ⟨hdead, -, hreaped⟩ := no_orphan_and_no_zombie hw rfl rfl rfl hfin (by simp)
  exact ⟨w, hw, hfin, hdead, hreaped.mpr (.inl (by decide))⟩

/-- A signal that a handler catches on the thread while it waits for the root leaves a zombie,
and nobody reaps it any more. -/
theorem interruptedWaitpid_leaves_zombie :
    ∃ w, Reaches Env.posix (fun _ => ⟨none, false, false⟩) (panickedRun .interrupted) w ∧
      (w.runs ()).main = .finished .unwound ∧ (w.runs ()).tree.rootReaped = false ∧
      ∀ later w', Lts.exec (step Env.posix fun _ => ⟨none, false, false⟩) w later = some w' →
        (w'.runs ()).tree.rootReaped = false := by
  obtain ⟨w, hw, hfin, hidle, hr⟩ : ∃ w,
      Reaches Env.posix (fun _ => ⟨none, false, false⟩) (panickedRun .interrupted) w ∧
      (w.runs ()).main = .finished .unwound ∧ (w.runs ()).waiter.pc = .idle ∧
      (w.runs ()).tree.rootReaped = false := Lts.exists_exec_of_any (by decide +kernel)
  exact ⟨w, hw, hfin, hr, fun later w' h' => zombie_stays hw rfl hfin hidle hr h'⟩

/-! ### Windows -/

section Windows

variable [DecidableEq ι] {env : Env} {cfg : ι → RunConfig} {tr : List (Label ι)} {w : World ι}

/-- Whoever creates a process is a member of the job. -/
def membersFork (w : World ι) : Label ι → Bool
  | .proc i (.fork who) => ((w.runs i).tree.proc? who).all Proc.inGroup
  | _ => true

/-- **No orphan on Windows, if only job members create processes**: once `run_impl` has
been left, in whatever way, the root and all its descendants are dead. -/
theorem no_orphan_on_windows (h : Reaches env cfg tr w) (hwindows : env.platform = .windows)
    (hpermitted : env.permitted = true)
    (hfork : Lts.Along (step env cfg) (fun w l => membersFork w l = true) (World.init ι env) tr)
    {i : ι} {o : Outcome} (hfin : (w.runs i).main = .finished o) :
    (w.runs i).tree.dead = true := by
  have he : Enclosed env (w.runs i).tree (w.runs i).main := by
    refine Lts.exec_invariant_along
      (P := fun _ w => Enclosed env (w.runs i).tree (w.runs i).main) ?_ ?_ h hfork
    · exact enclosed_init env
    · intro _ w l w' hw he hC hstep
      have henv : env.keepsGroup := fun hu => by rw [hwindows] at hu; cases hu
      refine enclosed_move (runMove_of_step hstep i) hpermitted henv (fun who p hl hproc => ?_)
        (cleanedUp_of_reaches hw hpermitted i) he
      subst hl
      simpa [membersFork, hproc] using hC
  rw [hfin] at he
  exact he

end Windows

/-- A Windows machine where job operations succeed. -/
def Env.win32 : Env := ⟨.windows, true, true, 65536⟩

/-- The root creates a process before it is assigned to the job; the process closes its
pipes. -/
def earlyChild : List (Label Unit) :=
  [.main () (.spawn (.createJob (.ok ()))), .main () (.spawn (.setInfo (.ok ()))),
    .main () (.spawn (.command (.ok 7))), .proc () (.fork .root),
    .proc () (.close (.kid 0) .stdout), .proc () (.close (.kid 0) .stderr)]

/-- The assignment succeeds and the run ends by itself. -/
def earlyChildRun : List (Label Unit) :=
  earlyChild ++
  [.main () (.spawn (.assign (.ok ()))), .main () .started, .main () .startedReturns,
    .main () (.startMonitor true), .main () .callWait, .wait () (.startOut true),
    .wait () (.startErr true), .proc () (.rootExit (some 0)), .wait () (.childWait (.ok ())),
    .wait () (.killTree .present), .drain () .stdout (.read .eof),
    .drain () .stderr (.read .eof), .wait () .joinOut, .wait () .joinErr, .main () .waitReturned,
    .main () .stopMonitor, .main () (.loadTimedOut false), .main () (.loadKillFired false),
    .main () .exited, .main () .exitedReturns, .main () .dropLocals]

/-- The assignment fails. -/
def earlyChildFailure : List (Label Unit) :=
  earlyChild ++
  [.main () (.spawn (.assign (.error (.os 5)))), .main () (.spawn (.killChild .present)),
    .main () (.spawn (.waitChild (.ok ())))]

/-- A process that the root creates before it is assigned to the job survives the run,
whether the assignment succeeds or not. -/
theorem process_created_before_assignment_survives :
    (∃ w, Reaches Env.win32 (fun _ => ⟨none, false, false⟩) earlyChildRun w ∧
      (w.runs ()).main = .finished (.ret (.ok ())) ∧ (w.runs ()).tree.kids ≠ [] ∧
      (w.runs ()).tree.dead = false) ∧
    ∃ w, Reaches Env.win32 (fun _ => ⟨none, false, false⟩) earlyChildFailure w ∧
      (w.runs ()).main = .finished (.ret (.error (.spawnFailed (.os 5)))) ∧
      (w.runs ()).tree.kids ≠ [] ∧ (w.runs ()).tree.dead = false :=
  ⟨Lts.exists_exec_of_any (by decide +kernel), Lts.exists_exec_of_any (by decide +kernel)⟩

/-- The root creates a process as a member of the job. -/
def memberChildRun : List (Label Unit) :=
  [.main () (.spawn (.createJob (.ok ()))), .main () (.spawn (.setInfo (.ok ()))),
    .main () (.spawn (.command (.ok 7))), .main () (.spawn (.assign (.ok ()))),
    .proc () (.fork .root), .main () .started, .main () .startedPanics, .main () .dropLocals,
    .main () (.guardKill (.terminate .present)), .main () (.guardReap .returned)]

/-- It leaves nothing running. -/
theorem memberChildRun_no_orphan :
    ∃ w, Reaches Env.win32 (fun _ => ⟨none, false, false⟩) memberChildRun w ∧
      (w.runs ()).main = .finished .unwound ∧ (w.runs ()).tree.dead = true := by
  obtain ⟨w, hw, hfin⟩ : ∃ w, Reaches Env.win32 (fun _ => ⟨none, false, false⟩) memberChildRun w ∧
      (w.runs ()).main = .finished .unwound := Lts.exists_exec_of_any (by decide +kernel)
  exact ⟨w, hw, hfin, no_orphan_on_windows hw rfl rfl (by decide +kernel) hfin⟩

end AerCore
