import AerCore.Task

/-!
# The environment of the child

`Task::with_env` keeps the variables of a task in a list, where a repeated key
is updated in place.  Both backends replay this list, after an optional
`env_clear`, into the map of std's `Command`, which on Unix compares names by
their bytes and on Windows without regard to case.

What a chain of builders leaves in the child is said here of the calls alone.
With names compared by bytes the list and the map agree on which call was last.
With a coarser comparison they do not: the list gives a spelling the place of
its first call, and the map takes the last place.

## Main definitions

* `Command`, `Command.childEnv` — the part of `std::process::Command` that is used.
* `configure`, `unixCommand`, `windowsCommand` — the configuration loop of `spawn`.
* `envCalls`, `lastClearEnv` — the calls of a chain, and the last `with_clear_env`.
* `Reordered` — the same calls, each builder's and each key's in their order.

## Main results

* `childEnv_unix` — **on Unix the last call of each key wins.**
* `childEnv_windows_iff` — on Windows it does exactly when the spelling first used last
  has the value of the last call.
-/

namespace AerCore

/-! ### `std::process::Command` -/

/-- An `OsString`, by its bytes. -/
abbrev OsString := ByteArray

instance : DecidableEq OsString := ByteArray.instDecidableEq

/-- A `String` as an `OsString`. -/
def osStr (s : String) : OsString := s.toUTF8

theorem osStr_injective : Function.Injective osStr := by
  intro s t h
  unfold osStr at h
  simpa [String.toByteArray_inj] using h

/-- The environment and the working directory of a `Command`.  Names that
compare equal have one key in `κ`. -/
structure Command (κ : Type*) where
  /-- Nothing is inherited. -/
  clear : Bool
  /-- The variables set. -/
  vars : κ → Option OsString
  /-- The working directory. -/
  dir : Option String

namespace Command

variable {κ : Type*}

/-- `Command::new`. -/
def new : Command κ := ⟨false, fun _ => none, none⟩

/-- `Command::env_clear`. -/
def envClear (cmd : Command κ) : Command κ := { cmd with clear := true, vars := fun _ => none }

/-- `Command::env`. -/
def env [DecidableEq κ] (key : OsString → κ) (cmd : Command κ) (name value : OsString) :
    Command κ :=
  { cmd with vars := Function.update cmd.vars (key name) (some value) }

/-- `Command::current_dir`. -/
def currentDir (cmd : Command κ) (dir : String) : Command κ := { cmd with dir := some dir }

/-- The environment of the child of a process with the environment `parent`. -/
def childEnv (cmd : Command κ) (parent : κ → Option OsString) : κ → Option OsString :=
  fun k => (cmd.vars k).or (if cmd.clear then none else parent k)

end Command

/-! ### The configuration loop of `spawn` -/

variable {κ : Type*} [DecidableEq κ]

/-- What `spawn` makes of its options: `env_clear` first, otherwise it would wipe
out the entries; then the entries in order; then the directory. -/
def configure (key : OsString → κ) (req : SpawnRequest) : Command κ :=
  let cmd := if req.clearEnv then Command.new.envClear else Command.new
  let cmd := req.env.foldl (fun cmd e => cmd.env key (osStr e.1) (osStr e.2)) cmd
  match req.cwd with
  | some dir => cmd.currentDir dir
  | none => cmd

/-- The configuration of `UnixProcess::spawn`: names are compared by their bytes. -/
def unixCommand (req : SpawnRequest) : Command OsString := configure id req

/-- The configuration of `WindowsProcess::spawn`: names are compared by what
`fold` makes of them. -/
def windowsCommand (fold : OsString → κ) (req : SpawnRequest) : Command κ := configure fold req

theorem foldl_env_clear (key : OsString → κ) (env : List (String × String)) (cmd : Command κ) :
    (env.foldl (fun cmd e => cmd.env key (osStr e.1) (osStr e.2)) cmd).clear = cmd.clear := by
  induction env generalizing cmd with
  | nil => rfl
  | cons e env ih => exact ih (cmd.env key (osStr e.1) (osStr e.2))

/-- The loop replays the entries into the map of the command. -/
theorem foldl_env_vars (key : OsString → κ) (env : List (String × String)) (cmd : Command κ) :
    (env.foldl (fun cmd e => cmd.env key (osStr e.1) (osStr e.2)) cmd).vars =
      Writes.replay key cmd.vars (env.map (Prod.map osStr osStr)) := by
  induction env generalizing cmd with
  | nil => rfl
  | cons e env ih => exact ih (cmd.env key (osStr e.1) (osStr e.2))

/-- The child sees the last entry of the list with the key of a name, else what
is inherited. -/
theorem childEnv_configure (key : OsString → κ) (req : SpawnRequest)
    (parent : κ → Option OsString) (k : κ) :
    (configure key req).childEnv parent k =
      ((Writes.last (key ∘ osStr) req.env k).map osStr).or
        (if req.clearEnv then none else parent k) := by
  have hdir : ∀ cmd : Command κ, (match req.cwd with
      | some dir => cmd.currentDir dir
      | none => cmd).childEnv parent k = cmd.childEnv parent k := by
    intro cmd
    cases req.cwd <;> rfl
  unfold configure
  rw [hdir, Command.childEnv, foldl_env_vars, foldl_env_clear, Writes.replay_apply, Writes.last_map]
  cases req.clearEnv <;> simp [Command.new, Command.envClear]

/-! ### The calls of a chain -/

/-- The arguments of a `with_env` call. -/
def Builder.envCall? : Builder → Option (String × String)
  | .env key value => some (key, value)
  | _ => none

/-- What a `with_timeout` call makes of the timeout. -/
def Builder.timeoutCall? : Builder → Option (Option ℕ)
  | .timeout ms => some (some ms)
  | _ => none

/-- The argument of a `with_capture_output` call. -/
def Builder.captureCall? : Builder → Option Bool
  | .captureOutput capture => some capture
  | _ => none

/-- What a `with_cwd` call makes of the directory. -/
def Builder.cwdCall? : Builder → Option (Option String)
  | .cwd path => some (some path)
  | _ => none

/-- The argument of a `with_clear_env` call. -/
def Builder.clearCall? : Builder → Option Bool
  | .clearEnv clear => some clear
  | _ => none

/-- The `with_env` calls of a chain. -/
def envCalls (bs : List Builder) : List (String × String) := bs.filterMap Builder.envCall?

/-- What the last `with_clear_env` of a chain said; the default is `false`. -/
def lastClearEnv (bs : List Builder) : Bool := (bs.filterMap Builder.clearCall?).getLast?.getD false

/-- The task that a chain of builders makes. -/
def Task.built (program : String) (args : List String) (bs : List Builder) : Task :=
  bs.foldl Task.build (Task.new program args)

section Built

variable (program : String) (args : List String) (bs : List Builder)

theorem built_concat (b : Builder) :
    Task.built program args (bs ++ [b]) = (Task.built program args bs).build b :=
  List.foldl_concat ..

theorem build_env (t : Task) (b : Builder) :
    (t.build b).env = b.envCall?.elim t.env fun e => Writes.assign e.1 e.2 t.env := by
  cases b with
  | env key value => exact setEnv_eq_assign key value t.env
  | _ => rfl

/-- The list of a task is the sequence of its `with_env` calls, collapsed. -/
theorem built_env : (Task.built program args bs).env = Writes.collapse (envCalls bs) := by
  induction bs using List.reverseRecOn with
  | nil => rfl
  | append_singleton bs b ih =>
    rw [built_concat, build_env, ih, envCalls, envCalls, List.filterMap_append]
    cases hb : b.envCall? with
    | none => simp [hb]
    | some e =>
      rw [List.filterMap_cons_some hb]
      exact (Writes.collapse_concat _ e).symm

/-- A field that one builder sets holds what the last call of this builder said. -/
theorem built_field {γ : Type*} (field : Task → γ) (call : Builder → Option γ)
    (hfield : ∀ t b, field (t.build b) = (call b).getD (field t)) :
    field (Task.built program args bs) =
      (bs.filterMap call).getLast?.getD (field (Task.new program args)) := by
  induction bs using List.reverseRecOn with
  | nil => rfl
  | append_singleton bs b ih =>
    rw [built_concat, hfield, ih, List.filterMap_append]
    cases hb : call b with
    | none => simp [hb]
    | some c => simp [hb]

theorem built_clearEnv : (Task.built program args bs).clearEnv = lastClearEnv bs :=
  built_field program args bs Task.clearEnv Builder.clearCall? fun t b => by cases b <;> rfl

end Built

/-! ### Reordering -/

/-- What a builder sets. -/
inductive Setting
  | timeout
  | captureOutput
  | env (key : String)
  | clearEnv
  | cwd
  deriving DecidableEq

/-- What a call of a builder sets. -/
def Builder.setting : Builder → Setting
  | .timeout _ => .timeout
  | .captureOutput _ => .captureOutput
  | .env key _ => .env key
  | .clearEnv _ => .clearEnv
  | .cwd _ => .cwd

/-- The same calls in another order: those of one builder, and for `with_env` those on one key,
stay in theirs. -/
def Reordered (bs bs' : List Builder) : Prop :=
  ∀ s : Setting, bs.filter (·.setting = s) = bs'.filter (·.setting = s)

/-- Two calls next to each other that set different things may change places. -/
theorem reordered_swap (pre post : List Builder) {a b : Builder} (hab : a.setting ≠ b.setting) :
    Reordered (pre ++ a :: b :: post) (pre ++ b :: a :: post) := by
  intro s
  rw [List.filter_append, List.filter_append]
  congr 1
  by_cases ha : a.setting = s
  · have hb : b.setting ≠ s := fun hb => hab (ha.trans hb.symm)
    simp [ha, hb]
  · by_cases hb : b.setting = s <;> simp [ha, hb]

/-- What is read off the calls that set `s` is not changed. -/
theorem Reordered.filterMap_eq {bs bs' : List Builder} (h : Reordered bs bs') {γ : Type*}
    (s : Setting) {f : Builder → Option γ} (hf : ∀ b, b.setting ≠ s → f b = none) :
    bs.filterMap f = bs'.filterMap f := by
  have hfilter : ∀ l : List Builder, (l.filter (·.setting = s)).filterMap f = l.filterMap f := by
    intro l
    rw [List.filterMap_filter]
    refine List.filterMap_congr fun b _ => ?_
    by_cases hb : b.setting = s
    · simp [hb]
    · simp [hb, hf b hb]
  rw [← hfilter bs, h s, hfilter bs']

theorem Reordered.field_eq {bs bs' : List Builder} (h : Reordered bs bs') (program : String)
    (args : List String) {γ : Type*} (s : Setting) (field : Task → γ) (call : Builder → Option γ)
    (hfield : ∀ t b, field (t.build b) = (call b).getD (field t))
    (hcall : ∀ b, b.setting ≠ s → call b = none) :
    field (Task.built program args bs) = field (Task.built program args bs') := by
  rw [built_field program args bs field call hfield, built_field program args bs' field call hfield,
    h.filterMap_eq s hcall]

/-- The last call of a key is not changed. -/
theorem Reordered.last_envCalls_eq {bs bs' : List Builder} (h : Reordered bs bs') (k : OsString) :
    Writes.last osStr (envCalls bs) k = Writes.last osStr (envCalls bs') k := by
  have hfilter : (envCalls bs).filter (fun e => osStr e.1 = k) =
      (envCalls bs').filter (fun e => osStr e.1 = k) := by
    unfold envCalls
    rw [List.filter_filterMap, List.filter_filterMap]
    by_cases hk : ∃ key, osStr key = k
    · obtain ⟨key, rfl⟩ := hk
      refine h.filterMap_eq (.env key) fun b hb => ?_
      cases b with
      | env key' value =>
        have hne : osStr key' ≠ osStr key := fun h => hb (by rw [osStr_injective h]; rfl)
        simp [Builder.envCall?, hne]
      | _ => rfl
    · refine h.filterMap_eq .cwd fun b _ => ?_
      cases b with
      | env key' value =>
        have hne : osStr key' ≠ k := fun h => hk ⟨key', h⟩
        simp [Builder.envCall?, hne]
      | _ => rfl
  rw [← Writes.last_filter osStr (envCalls bs) (p := fun e => osStr e.1 = k) (by simp), hfilter,
    Writes.last_filter osStr (envCalls bs') (by simp)]

/-! ### The environment of the child -/

/-- The environment that `UnixProcess::spawn` configures for a task. -/
def Task.unixEnv (t : Task) (parent : OsString → Option OsString) : OsString → Option OsString :=
  (unixCommand t.spawnRequest).childEnv parent

/-- The environment that `WindowsProcess::spawn` configures for a task, by the keys of the
names. -/
def Task.windowsEnv (t : Task) (fold : OsString → κ) (parent : κ → Option OsString) :
    κ → Option OsString :=
  (windowsCommand fold t.spawnRequest).childEnv parent

section Child

variable (program : String) (args : List String) (bs : List Builder)

/-- On Unix the last `with_env` of a name wins, and without one what is inherited. -/
theorem unixEnv_built (parent : OsString → Option OsString) (k : OsString) :
    (Task.built program args bs).unixEnv parent k =
      ((Writes.last osStr (envCalls bs) k).map osStr).or
        (if lastClearEnv bs then none else parent k) := by
  have h := childEnv_configure id (Task.built program args bs).spawnRequest parent k
  rw [Function.id_comp] at h
  refine h.trans ?_
  show ((Writes.last osStr (Task.built program args bs).env k).map osStr).or
      (if (Task.built program args bs).clearEnv then none else parent k) = _
  rw [built_env, built_clearEnv, Writes.last_collapse osStr_injective]

/-- On Windows the last entry of a name in the list wins, whatever its spelling. -/
theorem windowsEnv_built (fold : OsString → κ) (parent : κ → Option OsString) (k : κ) :
    (Task.built program args bs).windowsEnv fold parent k =
      ((Writes.last (fold ∘ osStr) (Writes.collapse (envCalls bs)) k).map osStr).or
        (if lastClearEnv bs then none else parent k) := by
  refine (childEnv_configure fold (Task.built program args bs).spawnRequest parent k).trans ?_
  show ((Writes.last (fold ∘ osStr) (Task.built program args bs).env k).map osStr).or
      (if (Task.built program args bs).clearEnv then none else parent k) = _
  rw [built_env, built_clearEnv]

theorem envKeys_built_nodup : (envKeys (Task.built program args bs).env).Nodup := by
  rw [built_env]
  exact Writes.nodup_names_collapse (envCalls bs)

/-- A reordering changes the order of the list at most. -/
theorem Reordered.built_eq {bs bs' : List Builder} (h : Reordered bs bs') :
    { Task.built program args bs' with env := (Task.built program args bs).env } =
      Task.built program args bs := by
  have hprogram := h.field_eq program args .cwd Task.program (fun _ => none)
    (fun t b => by cases b <;> rfl) (fun _ _ => rfl)
  have hargs := h.field_eq program args .cwd Task.args (fun _ => none)
    (fun t b => by cases b <;> rfl) (fun _ _ => rfl)
  have htimeout := h.field_eq program args .timeout Task.timeout Builder.timeoutCall?
    (fun t b => by cases b <;> rfl) (fun b hb => by cases b <;> first | rfl | exact absurd rfl hb)
  have hcapture := h.field_eq program args .captureOutput Task.captureOutput Builder.captureCall?
    (fun t b => by cases b <;> rfl) (fun b hb => by cases b <;> first | rfl | exact absurd rfl hb)
  have hclear := h.field_eq program args .clearEnv Task.clearEnv Builder.clearCall?
    (fun t b => by cases b <;> rfl) (fun b hb => by cases b <;> first | rfl | exact absurd rfl hb)
  have hcwd := h.field_eq program args .cwd Task.cwd Builder.cwdCall?
    (fun t b => by cases b <;> rfl) (fun b hb => by cases b <;> first | rfl | exact absurd rfl hb)
  show Task.mk (Task.built program args bs').program (Task.built program args bs').args
    (Task.built program args bs').timeout (Task.built program args bs').captureOutput
    (Task.built program args bs).env (Task.built program args bs').clearEnv
    (Task.built program args bs').cwd = Task.built program args bs
  rw [← hprogram, ← hargs, ← htimeout, ← hcapture, ← hclear, ← hcwd]

end Child

/-- On Unix the child sees the value of the last `with_env` of a name, else what the parent has
unless the last `with_clear_env` was `true`; the list has each key once; and a reordering
changes neither this environment nor the rest of the task. -/
theorem childEnv_unix (program : String) (args : List String) (bs : List Builder)
    (parent : OsString → Option OsString) :
    (∀ k, (Task.built program args bs).unixEnv parent k =
      match Writes.last osStr (envCalls bs) k with
      | some value => some (osStr value)
      | none => if lastClearEnv bs then none else parent k) ∧
    (envKeys (Task.built program args bs).env).Nodup ∧
    ∀ bs', Reordered bs bs' →
      (Task.built program args bs').unixEnv parent = (Task.built program args bs).unixEnv parent ∧
      { Task.built program args bs' with env := (Task.built program args bs).env } =
        Task.built program args bs := by
  refine ⟨fun k => ?_, envKeys_built_nodup program args bs, fun bs' h => ⟨?_, ?_⟩⟩
  · rw [unixEnv_built]
    cases Writes.last osStr (envCalls bs) k <;> rfl
  · have hclear : lastClearEnv bs = lastClearEnv bs' := by
      unfold lastClearEnv
      rw [h.filterMap_eq .clearEnv fun b hb => by cases b <;> first | rfl | exact absurd rfl hb]
    funext k
    rw [unixEnv_built, unixEnv_built, h.last_envCalls_eq k, hclear]
  · exact h.built_eq program args

/-- On Windows the child sees the value of the last `with_env` of a name exactly when the
spelling of the name that was first used last was last given this value too. -/
theorem childEnv_windows_iff (program : String) (args : List String) (bs : List Builder)
    (fold : OsString → κ) (parent : κ → Option OsString) (name : OsString) :
    (∀ value, Writes.last (fold ∘ osStr) (envCalls bs) (fold name) = some value →
      (Task.built program args bs).windowsEnv fold parent (fold name) = some (osStr value)) ↔
    ∀ spelling, Writes.newest (fold ∘ osStr) (envCalls bs) (fold name) = some spelling →
      Writes.last id (envCalls bs) spelling =
        Writes.last (fold ∘ osStr) (envCalls bs) (fold name) := by
  rw [← Writes.last_collapse_eq_iff, windowsEnv_built]
  constructor
  · intro h
    cases hlast : Writes.last (fold ∘ osStr) (envCalls bs) (fold name) with
    | none => exact (Writes.last_collapse_eq_none_iff ..).mpr hlast
    | some value =>
      specialize h value hlast
      cases hseen : Writes.last (fold ∘ osStr) (Writes.collapse (envCalls bs)) (fold name) with
      | none =>
        rw [Writes.last_collapse_eq_none_iff, hlast] at hseen
        cases hseen
      | some seen =>
        rw [hseen] at h
        have hosStr : osStr seen = osStr value := Option.some.inj h
        rw [osStr_injective hosStr]
  · intro h value hlast
    rw [h, hlast]
    rfl

/-- Letters of the ASCII range in lower case. -/
def asciiLower (s : OsString) : OsString :=
  ⟨s.data.map fun b => if 65 ≤ b ∧ b ≤ 90 then b + 32 else b⟩

/-- Three calls with two spellings: the second spelling wins over the last call. -/
theorem childEnv_mixed_case :
    let bs : List Builder := [.env "PATH" "1", .env "Path" "2", .env "PATH" "3"]
    Writes.last (asciiLower ∘ osStr) (envCalls bs) (asciiLower (osStr "PATH")) = some "3" ∧
    (Task.built "cmd" [] bs).windowsEnv asciiLower (fun _ => none) (asciiLower (osStr "PATH")) =
      some (osStr "2") := by
  decide +kernel

end AerCore
