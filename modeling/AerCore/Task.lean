import AerCore.Writes

/-!
# Tasks and their builders

`Task` of `task.rs`: one command and what it is to be run with.  The consuming
builders are functions, and a chain of them is a fold over the calls that make it.

## Main definitions

* `Task`, `Task.new`, `Task.withTimeout` and the other builders.
* `Builder`, `Task.build` — a call of a builder, and what it does.
* `SpawnRequest` — what `run_impl` hands to `PlatformProcess::spawn`.
* `EnvOk` — the keys that `aer_task_set_env` lets through.

## Main results

* `envKeys_setEnv` — a key keeps its place in the list, a new one goes to the end.
* `envOk_foldl_build` — a chain of builders whose keys are valid keeps them so, and apart.
-/

namespace AerCore

/-! ### The task -/

/-- A single-shot task: one command, one execution. -/
structure Task where
  /-- The program. -/
  program : String
  /-- Its arguments. -/
  args : List String
  /-- The timeout, in milliseconds. -/
  timeout : Option ℕ
  /-- Whether output is captured. -/
  captureOutput : Bool
  /-- Variables to set, in the order of their first mention. -/
  env : List (String × String)
  /-- Whether the parent's environment is dropped. -/
  clearEnv : Bool
  /-- The working directory. -/
  cwd : Option String
  deriving DecidableEq, Repr

/-- What `PlatformProcess::spawn` is given: the program, its arguments and `SpawnOptions`. -/
structure SpawnRequest where
  /-- The program. -/
  program : String
  /-- Its arguments. -/
  args : List String
  /-- Variables to set. -/
  env : List (String × String)
  /-- Whether the parent's environment is dropped. -/
  clearEnv : Bool
  /-- The working directory. -/
  cwd : Option String
  deriving DecidableEq, Repr

/-- The value of the first entry of `key` is replaced; without one, an entry is pushed. -/
def setEnv (key value : String) : List (String × String) → List (String × String)
  | [] => [(key, value)]
  | (k, v) :: env => if k = key then (k, value) :: env else (k, v) :: setEnv key value env

namespace Task

/-- `Task::new`. -/
def new (program : String) (args : List String) : Task :=
  ⟨program, args, none, false, [], false, none⟩

/-- `Task::with_timeout`. -/
def withTimeout (t : Task) (timeout : ℕ) : Task := { t with timeout := some timeout }

/-- `Task::with_capture_output`. -/
def withCaptureOutput (t : Task) (capture : Bool) : Task := { t with captureOutput := capture }

/-- `Task::with_env`. -/
def withEnv (t : Task) (key value : String) : Task := { t with env := setEnv key value t.env }

/-- `Task::with_clear_env`. -/
def withClearEnv (t : Task) (clear : Bool) : Task := { t with clearEnv := clear }

/-- `Task::with_cwd`. -/
def withCwd (t : Task) (path : String) : Task := { t with cwd := some path }

/-- What `run_impl` spawns. -/
def spawnRequest (t : Task) : SpawnRequest := ⟨t.program, t.args, t.env, t.clearEnv, t.cwd⟩

end Task

/-! ### Chains of builders -/

/-- A call of a builder. -/
inductive Builder
  | timeout (ms : ℕ)
  | captureOutput (capture : Bool)
  | env (key value : String)
  | clearEnv (clear : Bool)
  | cwd (path : String)
  deriving DecidableEq, Repr

/-- What a builder does. -/
def Task.build (t : Task) : Builder → Task
  | .timeout ms => t.withTimeout ms
  | .captureOutput capture => t.withCaptureOutput capture
  | .env key value => t.withEnv key value
  | .clearEnv clear => t.withClearEnv clear
  | .cwd path => t.withCwd path

/-! ### The environment list -/

/-- The names of the variables, in order. -/
def envKeys (env : List (String × String)) : List String := env.map Prod.fst

@[simp] theorem envKeys_nil : envKeys [] = [] := rfl

@[simp] theorem envKeys_cons (k v : String) (env : List (String × String)) :
    envKeys ((k, v) :: env) = k :: envKeys env := rfl

/-- A key that `aer_task_set_env` lets through. -/
def ValidKey (key : String) : Prop := key ≠ "" ∧ '=' ∉ key.toList

/-- Every key is valid, and no two are the same. -/
structure EnvOk (env : List (String × String)) : Prop where
  /-- Keys are not empty and have no `=`. -/
  valid : ∀ key ∈ envKeys env, ValidKey key
  /-- They are pairwise distinct. -/
  nodup : (envKeys env).Nodup

theorem setEnv_eq_assign (key value : String) (env : List (String × String)) :
    setEnv key value env = Writes.assign key value env := by
  induction env with
  | nil => rfl
  | cons e env ih =>
    obtain ⟨k, v⟩ := e
    rw [setEnv, Writes.assign, ih]

/-- A key keeps its place in the list; a new one goes to the end. -/
theorem envKeys_setEnv (key value : String) (env : List (String × String)) :
    envKeys (setEnv key value env) =
      if key ∈ envKeys env then envKeys env else envKeys env ++ [key] := by
  rw [setEnv_eq_assign]
  exact Writes.names_assign key value env

theorem EnvOk.setEnv {env : List (String × String)} (h : EnvOk env) {key : String}
    (hkey : ValidKey key) (value : String) : EnvOk (setEnv key value env) := by
  refine ⟨fun k hk => ?_, ?_⟩
  · rw [envKeys_setEnv] at hk
    by_cases hmem : key ∈ envKeys env
    · rw [if_pos hmem] at hk
      exact h.valid k hk
    · rw [if_neg hmem] at hk
      rcases List.mem_append.mp hk with hk | hk
      · exact h.valid k hk
      · rw [List.mem_singleton.mp hk]
        exact hkey
  · rw [setEnv_eq_assign]
    exact Writes.nodup_names_assign h.nodup key value

/-- The key of a builder, if it has one, is valid. -/
def Builder.keyOk : Builder → Prop
  | .env key _ => ValidKey key
  | _ => True

theorem EnvOk.build {t : Task} (h : EnvOk t.env) {b : Builder} (hb : b.keyOk) :
    EnvOk (t.build b).env := by
  cases b with
  | env key value => exact h.setEnv hb value
  | _ => exact h

/-- A chain of builders with valid keys makes a list of valid and distinct keys. -/
theorem envOk_foldl_build {bs : List Builder} (hbs : ∀ b ∈ bs, b.keyOk) {t : Task}
    (h : EnvOk t.env) : EnvOk (bs.foldl Task.build t).env := by
  induction bs generalizing t with
  | nil => exact h
  | cons b bs ih =>
    exact ih (fun b' hb' => hbs b' (by simp [hb'])) (h.build (hbs b (by simp)))

end AerCore
