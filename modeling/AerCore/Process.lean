import AerCore.Machine

/-!
# The spawned process tree and the OS under it

What the operating system keeps about one spawned root: the root itself, its
live descendants, and the two pipes that carry the tree's output.  A process
belongs to the *containment group* of the run, the process group on Unix and
the job object on Windows, or has escaped it.

Processes act on their own: a live process may fork, exit, close its end of a
pipe, write to it or (on Unix) leave the group at any step.  A polite signal has
no effect of its own here, since a process that honours it is one that exits;
only the forced kill (`SIGKILL`, `TerminateJobObject`) changes the tree.

Signals and probes are addressed to the tree of a run.  The code names a pid or a process
group; that the system may have given the number of a process that is gone to another one
is left out.

A root that has terminated but has not been waited for is a *zombie*: on Unix it
still answers `killpg(pgid, 0)` and `kill(pid, 0)`, and so do zombie descendants
that nobody has reaped yet.

## Main definitions

* `Env` — the platform and what is assumed of it.
* `Tree` — the processes and pipes of one run.
* `Tree.groupExists`, `Tree.groupLive` — what a probe of the group finds, and
  whether something in it still runs.
* `Tree.killGroup` — the forced kill.
* `procStep` — the steps of the processes themselves.

## Main results

* `procStep_live` — new processes come only from live ones, so a dead tree and a
  group in which nothing runs stay so (`Tree.LiveFrom.dead`, `Tree.LiveFrom.groupLive`).
* `Tree.killGroup_groupLive` — the forced kill leaves nothing running in the group.
* `procStep_groupExists` — a group that does not exist is not created again.
-/

namespace AerCore

/-! ### The environment -/

/-- The two backends of `OsProcess`. -/
inductive Platform
  | unix
  | windows
  deriving DecidableEq, Repr

/-- The platform a run executes on and what is assumed of it. -/
structure Env where
  /-- The backend that `PlatformProcess` names. -/
  platform : Platform
  /-- Signals to the tree and operations on the job are permitted. -/
  permitted : Bool
  /-- Descendants never leave the process group. -/
  closed : Bool
  /-- The capacity of a pipe, in bytes. -/
  pipeCapacity : ℕ

/-! ### Processes -/

/-- What the run can observe of one process: whether it belongs to the
containment group and which write ends it holds. -/
structure Proc where
  /-- Member of the process group (Unix) or of the job (Windows). -/
  inGroup : Bool
  /-- Holds the write end of the stdout pipe. -/
  out : Bool
  /-- Holds the write end of the stderr pipe. -/
  err : Bool
  deriving DecidableEq, Repr

/-- The process holds the write end of the given stream. -/
def Proc.holds (p : Proc) : Stream → Bool
  | .stdout => p.out
  | .stderr => p.err

/-- The process after closing its write end of the given stream. -/
def Proc.close (p : Proc) : Stream → Proc
  | .stdout => { p with out := false }
  | .stderr => { p with err := false }

/-- The life of the spawned root.  `status` is its exit code, absent if it was
killed by a signal. -/
inductive Root
  | unborn
  | live
  | zombie (status : Option ℤ)
  | reaped (status : Option ℤ)
  deriving DecidableEq, Repr

/-- The processes and pipes of one run. -/
structure Tree where
  /-- The spawned process. -/
  root : Root
  /-- The root's own membership and write ends, meaningful while it lives. -/
  leader : Proc
  /-- The live descendants of the root. -/
  kids : List Proc
  /-- Terminated descendants in the group that nobody has reaped yet. -/
  zombies : ℕ
  /-- Bytes written to stdout and not read yet. -/
  outBuf : List UInt8
  /-- Bytes written to stderr and not read yet. -/
  errBuf : List UInt8
  deriving DecidableEq, Repr

namespace Tree

/-- Nothing has been spawned. -/
def unborn : Tree := ⟨.unborn, ⟨false, false, false⟩, [], 0, [], []⟩

/-- The tree right after `Command::spawn`, with the root inside or outside its
containment group. -/
def spawned (inGroup : Bool) : Tree := ⟨.live, ⟨inGroup, true, true⟩, [], 0, [], []⟩

/-- The root still runs. -/
def rootLive (t : Tree) : Bool := t.root == .live

/-- The root's pid names a process: it runs or is a zombie. -/
def pidExists (t : Tree) : Bool :=
  match t.root with
  | .live | .zombie _ => true
  | .unborn | .reaped _ => false

/-- Some member of the group still runs. -/
def groupLive (t : Tree) : Bool :=
  (t.rootLive && t.leader.inGroup) || t.kids.any (·.inGroup)

/-- The group has a member, running or not yet reaped. -/
def groupExists (t : Tree) : Bool :=
  (t.pidExists && t.leader.inGroup) || t.kids.any (·.inGroup) || decide (0 < t.zombies)

/-- Every process of the tree has terminated, inside the group and outside. -/
def dead (t : Tree) : Bool := !t.rootLive && t.kids.isEmpty

/-- The root has been waited for. -/
def rootReaped (t : Tree) : Bool :=
  match t.root with
  | .reaped _ => true
  | _ => false

/-- The unread bytes of a stream. -/
def buf (t : Tree) : Stream → List UInt8
  | .stdout => t.outBuf
  | .stderr => t.errBuf

/-- The tree with other unread bytes on a stream. -/
def setBuf (t : Tree) : Stream → List UInt8 → Tree
  | .stdout, bs => { t with outBuf := bs }
  | .stderr, bs => { t with errBuf := bs }

/-- Some live process holds the write end of the stream. -/
def held (t : Tree) (s : Stream) : Bool :=
  (t.rootLive && t.leader.holds s) || t.kids.any (·.holds s)

/-- The root terminates with the given status, if it still runs. -/
def killRoot (t : Tree) (status : Option ℤ) : Tree :=
  if t.rootLive then { t with root := .zombie status } else t

/-- The forced kill: every live member of the group terminates at once, the root
with the given status. -/
def killGroup (t : Tree) (status : Option ℤ) : Tree :=
  { t with
    root := if t.rootLive && t.leader.inGroup then .zombie status else t.root
    kids := t.kids.filter fun p => !p.inGroup
    zombies := t.zombies + t.kids.countP (·.inGroup) }

/-- `waitpid` on the root: a zombie is reaped; `none` while the root runs. -/
def reapRoot (t : Tree) : Option Tree :=
  match t.root with
  | .zombie status => some { t with root := .reaped status }
  | .reaped _ => some t
  | .live | .unborn => none

end Tree

/-! ### Steps of the processes -/

/-- Which process acts: the root, or a live descendant by its position. -/
inductive Who
  | root
  | kid (n : ℕ)
  deriving DecidableEq, Repr

/-- What the processes of a tree, and whoever reaps orphans, may do. -/
inductive ProcAct
  /-- The root exits, with its exit code unless a signal ended it. -/
  | rootExit (status : Option ℤ)
  /-- A process creates another one. -/
  | fork (who : Who)
  /-- A descendant exits. -/
  | kidExit (n : ℕ)
  /-- A zombie descendant is reaped by its parent or by `init`. -/
  | kidReap
  /-- A descendant leaves the process group (`setsid`, `setpgid`). -/
  | leave (n : ℕ)
  /-- A process closes its write end of a stream. -/
  | close (who : Who) (s : Stream)
  /-- A process writes to a stream; it blocks while the pipe has no room. -/
  | write (who : Who) (s : Stream) (bytes : List UInt8)
  deriving DecidableEq, Repr

/-- The live process a `Who` names. -/
def Tree.proc? (t : Tree) : Who → Option Proc
  | .root => if t.rootLive then some t.leader else none
  | .kid n => t.kids[n]?

/-- The tree with the named process replaced. -/
def Tree.setProc (t : Tree) (p : Proc) : Who → Tree
  | .root => { t with leader := p }
  | .kid n => { t with kids := t.kids.set n p }

/-- One step of a process of the tree.  A child inherits its parent's group (the
job, on Windows) and write ends. -/
def procStep (env : Env) (t : Tree) : ProcAct → Option Tree
  | .rootExit status => if t.rootLive then some { t with root := .zombie status } else none
  | .fork who => (t.proc? who).map fun p => { t with kids := t.kids ++ [p] }
  | .kidExit n =>
      t.kids[n]?.map fun p =>
        { t with
          kids := t.kids.eraseIdx n
          zombies := if p.inGroup then t.zombies + 1 else t.zombies }
  | .kidReap => if 0 < t.zombies then some { t with zombies := t.zombies - 1 } else none
  | .leave n =>
      if env.platform = .unix ∧ env.closed = false then
        t.kids[n]?.map fun p => { t with kids := t.kids.set n { p with inGroup := false } }
      else none
  | .close who s => (t.proc? who).map fun p => t.setProc (p.close s) who
  | .write who s bytes =>
      match t.proc? who with
      | none => none
      | some p =>
          if p.holds s = true ∧ (t.buf s).length + bytes.length ≤ env.pipeCapacity then
            some (t.setBuf s (t.buf s ++ bytes))
          else none

/-! ### What a process can do -/

namespace Tree

@[simp] theorem rootLive_iff {t : Tree} : t.rootLive = true ↔ t.root = .live := by
  simp [rootLive]

@[simp] theorem rootLive_eq_false_iff {t : Tree} : t.rootLive = false ↔ t.root ≠ .live := by
  simp [rootLive]

theorem proc?_root_eq_some {t : Tree} {p : Proc} :
    t.proc? .root = some p ↔ t.root = .live ∧ t.leader = p := by
  simp [proc?]

theorem proc?_kid_mem {t : Tree} {n : ℕ} {p : Proc} (h : t.proc? (.kid n) = some p) :
    p ∈ t.kids :=
  List.mem_of_getElem? h

theorem exists_proc?_of_mem {t : Tree} {p : Proc} (h : p ∈ t.kids) :
    ∃ n, t.proc? (.kid n) = some p :=
  List.mem_iff_getElem?.mp h

/-- Something runs in the group exactly when a live process is a member. -/
theorem groupLive_iff {t : Tree} :
    t.groupLive = true ↔ ∃ who p, t.proc? who = some p ∧ p.inGroup = true := by
  simp only [groupLive, Bool.or_eq_true, Bool.and_eq_true, rootLive_iff, List.any_eq_true]
  constructor
  · rintro (⟨hlive, hin⟩ | ⟨p, hp, hin⟩)
    · exact ⟨.root, t.leader, proc?_root_eq_some.mpr ⟨hlive, rfl⟩, hin⟩
    · obtain ⟨n, hn⟩ := exists_proc?_of_mem hp
      exact ⟨.kid n, p, hn, hin⟩
  · rintro ⟨who, p, hp, hin⟩
    cases who with
    | root =>
      obtain ⟨hlive, rfl⟩ := proc?_root_eq_some.mp hp
      exact .inl ⟨hlive, hin⟩
    | kid n => exact .inr ⟨p, proc?_kid_mem hp, hin⟩

/-- A tree is dead exactly when it has no live process. -/
theorem dead_iff {t : Tree} : t.dead = true ↔ ∀ who, t.proc? who = none := by
  simp only [dead, Bool.and_eq_true, Bool.not_eq_true', List.isEmpty_iff]
  constructor
  · rintro ⟨hroot, hkids⟩ who
    cases who with
    | root => simp [proc?, hroot]
    | kid n => simp [proc?, hkids]
  · intro h
    refine ⟨?_, ?_⟩
    · have := h .root
      simpa [proc?] using this
    · rw [List.eq_nil_iff_forall_not_mem]
      intro p hp
      obtain ⟨n, hn⟩ := exists_proc?_of_mem hp
      rw [h] at hn
      cases hn

/-- A group exists when something runs in it, when its leader is a zombie, or when a
descendant is. -/
theorem groupExists_eq_false_iff {t : Tree} :
    t.groupExists = false ↔ t.groupLive = false ∧ t.zombies = 0 ∧
      ∀ status, t.root = .zombie status → t.leader.inGroup = false := by
  cases hr : t.root <;> simp [groupExists, groupLive, pidExists, rootLive, hr]
  tauto

/-- Every live process of `t'` descends from, or is, a live process of `t` that is a
member of the group if it is one. -/
def LiveFrom (t t' : Tree) : Prop :=
  ∀ who' p', t'.proc? who' = some p' →
    ∃ who p, t.proc? who = some p ∧ (p'.inGroup = true → p.inGroup = true)

theorem LiveFrom.groupLive {t t' : Tree} (h : LiveFrom t t') (hl : t.groupLive = false) :
    t'.groupLive = false := by
  rw [Bool.eq_false_iff] at hl ⊢
  intro hlive
  obtain ⟨who', p', hp', hin'⟩ := groupLive_iff.mp hlive
  obtain ⟨who, p, hp, himp⟩ := h who' p' hp'
  exact hl (groupLive_iff.mpr ⟨who, p, hp, himp hin'⟩)

theorem LiveFrom.dead {t t' : Tree} (h : LiveFrom t t') (hd : t.dead = true) :
    t'.dead = true := by
  rw [dead_iff] at hd ⊢
  intro who'
  cases hp' : t'.proc? who' with
  | none => rfl
  | some p' =>
    obtain ⟨who, p, hp, -⟩ := h who' p' hp'
    rw [hd who] at hp
    cases hp

/-- Fewer live processes, each as before. -/
theorem liveFrom_of_subset {t t' : Tree} (hroot : t'.root = .live → t.root = .live)
    (hleader : t'.leader.inGroup = true → t.leader.inGroup = true)
    (hkids : ∀ p' ∈ t'.kids, ∃ who p, t.proc? who = some p ∧
      (p'.inGroup = true → p.inGroup = true)) : LiveFrom t t' := by
  intro who' p' hp'
  cases who' with
  | root =>
    obtain ⟨hlive, rfl⟩ := proc?_root_eq_some.mp hp'
    exact ⟨.root, t.leader, proc?_root_eq_some.mpr ⟨hroot hlive, rfl⟩, hleader⟩
  | kid n => exact hkids p' (proc?_kid_mem hp')

theorem exists_proc?_of_kid {t : Tree} {p' p : Proc} (h : p ∈ t.kids)
    (hin : p'.inGroup = true → p.inGroup = true) :
    ∃ who q, t.proc? who = some q ∧ (p'.inGroup = true → q.inGroup = true) := by
  obtain ⟨n, hn⟩ := exists_proc?_of_mem h
  exact ⟨.kid n, p, hn, hin⟩

@[simp] theorem setBuf_root (t : Tree) (s : Stream) (bs : List UInt8) :
    (t.setBuf s bs).root = t.root := by cases s <;> rfl

@[simp] theorem setBuf_leader (t : Tree) (s : Stream) (bs : List UInt8) :
    (t.setBuf s bs).leader = t.leader := by cases s <;> rfl

@[simp] theorem setBuf_kids (t : Tree) (s : Stream) (bs : List UInt8) :
    (t.setBuf s bs).kids = t.kids := by cases s <;> rfl

@[simp] theorem setBuf_zombies (t : Tree) (s : Stream) (bs : List UInt8) :
    (t.setBuf s bs).zombies = t.zombies := by cases s <;> rfl

theorem liveFrom_killGroup (t : Tree) (status : Option ℤ) : LiveFrom t (t.killGroup status) := by
  refine liveFrom_of_subset ?_ id fun p hp => ?_
  · intro h
    simp only [killGroup] at h
    split at h
    · cases h
    · exact h
  · exact exists_proc?_of_kid (List.mem_filter.mp hp).1 id

/-- The forced kill leaves nothing running in the group. -/
theorem killGroup_groupLive (t : Tree) (status : Option ℤ) :
    (t.killGroup status).groupLive = false := by
  rw [Bool.eq_false_iff]
  intro hlive
  obtain ⟨who, p, hp, hin⟩ := groupLive_iff.mp hlive
  cases who with
  | root =>
    obtain ⟨hroot, rfl⟩ := proc?_root_eq_some.mp hp
    have hin' : t.leader.inGroup = true := hin
    simp only [killGroup, hin', Bool.and_true, rootLive_iff] at hroot
    split at hroot
    · cases hroot
    · next hne => exact hne hroot
  | kid n =>
    have := (List.mem_filter.mp (proc?_kid_mem hp)).2
    simp [hin] at this

theorem liveFrom_killRoot (t : Tree) (status : Option ℤ) : LiveFrom t (t.killRoot status) := by
  unfold killRoot
  split
  · exact liveFrom_of_subset (fun h => by cases h) id fun p hp => exists_proc?_of_kid hp id
  · exact liveFrom_of_subset id id fun p hp => exists_proc?_of_kid hp id

end Tree

open AerCore.Tree

/-- A step of a process leaves the root as it is, unless it is the root's exit. -/
theorem procStep_root {env : Env} {t t' : Tree} {a : ProcAct} (h : procStep env t a = some t') :
    t'.root = t.root ∨ (t.root = .live ∧ ∃ status, t'.root = .zombie status) := by
  cases a with
  | rootExit status =>
    obtain ⟨hlive, h⟩ := Option.ite_none_right_eq_some.mp h
    cases h
    exact .inr ⟨rootLive_iff.mp hlive, status, rfl⟩
  | fork who =>
    obtain ⟨p, -, rfl⟩ := Option.map_eq_some_iff.mp h
    exact .inl rfl
  | kidExit n =>
    obtain ⟨p, -, rfl⟩ := Option.map_eq_some_iff.mp h
    exact .inl rfl
  | kidReap =>
    obtain ⟨-, h⟩ := Option.ite_none_right_eq_some.mp h
    cases h
    exact .inl rfl
  | leave n =>
    obtain ⟨-, h⟩ := Option.ite_none_right_eq_some.mp h
    obtain ⟨p, -, rfl⟩ := Option.map_eq_some_iff.mp h
    exact .inl rfl
  | close who s =>
    obtain ⟨p, -, rfl⟩ := Option.map_eq_some_iff.mp h
    cases who <;> exact .inl rfl
  | write who s bytes =>
    simp only [procStep] at h
    split at h
    · cases h
    · obtain ⟨-, h⟩ := Option.ite_none_right_eq_some.mp h
      cases h
      exact .inl (setBuf_root _ _ _)

/-- New processes come only from live ones, and join only their parent's group. -/
theorem procStep_live {env : Env} {t t' : Tree} {a : ProcAct} (h : procStep env t a = some t') :
    LiveFrom t t' := by
  cases a with
  | rootExit status =>
    obtain ⟨-, h⟩ := Option.ite_none_right_eq_some.mp h
    cases h
    exact liveFrom_of_subset (fun h => by cases h) id fun p hp => exists_proc?_of_kid hp id
  | fork who =>
    obtain ⟨p, hp, rfl⟩ := Option.map_eq_some_iff.mp h
    refine liveFrom_of_subset id id fun q hq => ?_
    rcases List.mem_append.mp hq with hq | hq
    · exact exists_proc?_of_kid hq id
    · obtain rfl := List.mem_singleton.mp hq
      exact ⟨who, q, hp, id⟩
  | kidExit n =>
    obtain ⟨p, -, rfl⟩ := Option.map_eq_some_iff.mp h
    exact liveFrom_of_subset id id fun q hq =>
      exists_proc?_of_kid (List.mem_of_mem_eraseIdx hq) id
  | kidReap =>
    obtain ⟨-, h⟩ := Option.ite_none_right_eq_some.mp h
    cases h
    exact liveFrom_of_subset id id fun p hp => exists_proc?_of_kid hp id
  | leave n =>
    obtain ⟨-, h⟩ := Option.ite_none_right_eq_some.mp h
    obtain ⟨p, hp, rfl⟩ := Option.map_eq_some_iff.mp h
    refine liveFrom_of_subset id id fun q hq => ?_
    rcases List.mem_or_eq_of_mem_set hq with hq | rfl
    · exact exists_proc?_of_kid hq id
    · exact exists_proc?_of_kid (List.mem_of_getElem? hp) (fun h => by cases h)
  | close who s =>
    obtain ⟨p, hp, rfl⟩ := Option.map_eq_some_iff.mp h
    cases who with
    | root =>
      obtain ⟨-, rfl⟩ := proc?_root_eq_some.mp hp
      exact liveFrom_of_subset id (by cases s <;> exact id) fun p hp =>
        exists_proc?_of_kid hp id
    | kid n =>
      refine liveFrom_of_subset id id fun q hq => ?_
      rcases List.mem_or_eq_of_mem_set hq with hq | rfl
      · exact exists_proc?_of_kid hq id
      · exact exists_proc?_of_kid (proc?_kid_mem hp) (by cases s <;> exact id)
  | write who s bytes =>
    simp only [procStep] at h
    split at h
    · cases h
    · obtain ⟨-, h⟩ := Option.ite_none_right_eq_some.mp h
      cases h
      refine liveFrom_of_subset (by simp) (by simp) fun p hp => ?_
      rw [setBuf_kids] at hp
      exact exists_proc?_of_kid hp id

/-- The root never changes its group. -/
theorem procStep_leader {env : Env} {t t' : Tree} {a : ProcAct} (h : procStep env t a = some t') :
    t'.leader.inGroup = t.leader.inGroup := by
  cases a with
  | rootExit status | kidReap =>
    obtain ⟨-, h⟩ := Option.ite_none_right_eq_some.mp h
    cases h
    rfl
  | fork who | kidExit n =>
    obtain ⟨p, -, rfl⟩ := Option.map_eq_some_iff.mp h
    rfl
  | leave n =>
    obtain ⟨-, h⟩ := Option.ite_none_right_eq_some.mp h
    obtain ⟨p, -, rfl⟩ := Option.map_eq_some_iff.mp h
    rfl
  | close who s =>
    obtain ⟨p, hp, rfl⟩ := Option.map_eq_some_iff.mp h
    cases who with
    | root =>
      obtain ⟨-, rfl⟩ := proc?_root_eq_some.mp hp
      cases s <;> rfl
    | kid n => rfl
  | write who s bytes =>
    simp only [procStep] at h
    split at h
    · cases h
    · obtain ⟨-, h⟩ := Option.ite_none_right_eq_some.mp h
      cases h
      rw [setBuf_leader]

/-- Only the exit of a member of the group leaves a new zombie in it. -/
theorem procStep_zombies {env : Env} {t t' : Tree} {a : ProcAct} (h : procStep env t a = some t')
    (hl : t.groupLive = false) : t'.zombies ≤ t.zombies := by
  cases a with
  | rootExit status =>
    obtain ⟨-, h⟩ := Option.ite_none_right_eq_some.mp h
    cases h
    exact Nat.le_refl _
  | fork who =>
    obtain ⟨p, -, rfl⟩ := Option.map_eq_some_iff.mp h
    exact Nat.le_refl _
  | kidExit n =>
    obtain ⟨p, hp, rfl⟩ := Option.map_eq_some_iff.mp h
    have hin : p.inGroup = false := by
      rw [Bool.eq_false_iff] at hl ⊢
      exact fun hin => hl (groupLive_iff.mpr ⟨.kid n, p, hp, hin⟩)
    simp [hin]
  | kidReap =>
    obtain ⟨-, h⟩ := Option.ite_none_right_eq_some.mp h
    cases h
    exact Nat.sub_le _ _
  | leave n =>
    obtain ⟨-, h⟩ := Option.ite_none_right_eq_some.mp h
    obtain ⟨p, -, rfl⟩ := Option.map_eq_some_iff.mp h
    exact Nat.le_refl _
  | close who s =>
    obtain ⟨p, -, rfl⟩ := Option.map_eq_some_iff.mp h
    cases who <;> exact Nat.le_refl _
  | write who s bytes =>
    simp only [procStep] at h
    split at h
    · cases h
    · obtain ⟨-, h⟩ := Option.ite_none_right_eq_some.mp h
      cases h
      exact Nat.le_of_eq (setBuf_zombies _ _ _)

/-- A group that does not exist is not created again. -/
theorem procStep_groupExists {env : Env} {t t' : Tree} {a : ProcAct}
    (h : procStep env t a = some t') (he : t.groupExists = false) : t'.groupExists = false := by
  obtain ⟨hl, hz, hroot⟩ := groupExists_eq_false_iff.mp he
  have hz' : t'.zombies = 0 := Nat.le_zero.mp (hz ▸ procStep_zombies h hl)
  refine groupExists_eq_false_iff.mpr ⟨(procStep_live h).groupLive hl, hz', ?_⟩
  intro status hs
  rw [procStep_leader h]
  rcases procStep_root h with hsame | ⟨hlive, -⟩
  · exact hroot status (hsame ▸ hs)
  · -- the root has just exited, so it was running, and nothing runs in the group
    rw [Bool.eq_false_iff] at hl ⊢
    exact fun hin =>
      hl (groupLive_iff.mpr ⟨.root, t.leader, proc?_root_eq_some.mpr ⟨hlive, rfl⟩, hin⟩)

/-- The forced kill does not bring back a group that does not exist. -/
theorem killGroup_groupExists {t : Tree} (status : Option ℤ) (he : t.groupExists = false) :
    (t.killGroup status).groupExists = false := by
  obtain ⟨hl, hz, hroot⟩ := groupExists_eq_false_iff.mp he
  have hkids : ∀ p ∈ t.kids, ¬p.inGroup = true := by
    intro p hp hin
    obtain ⟨n, hn⟩ := exists_proc?_of_mem hp
    exact Bool.eq_false_iff.mp hl (groupLive_iff.mpr ⟨.kid n, p, hn, hin⟩)
  refine groupExists_eq_false_iff.mpr ⟨killGroup_groupLive t status, ?_, ?_⟩
  · simp only [killGroup, hz, Nat.zero_add]
    exact List.countP_eq_zero.mpr hkids
  · intro s hs
    simp only [killGroup] at hs
    split at hs
    · next h =>
      rw [Bool.and_eq_true, rootLive_iff] at h
      exact absurd (groupLive_iff.mpr ⟨.root, t.leader, proc?_root_eq_some.mpr ⟨h.1, rfl⟩, h.2⟩)
        (Bool.eq_false_iff.mp hl)
    · exact hroot s hs

end AerCore
