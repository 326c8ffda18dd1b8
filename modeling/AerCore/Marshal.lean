import AerCore.Chain
import AerCore.Unicode
import Mathlib.Data.List.TakeWhile

/-!
# Strings across the language boundary

The .NET binding hands its strings to the C interface in UTF-8, each ended by a NUL, and the C
interface reads them up to the first NUL and wants them valid.  They always are: a surrogate
that stands alone has become a replacement character on the way.  What arrives is the text of
the string, which is all of it unless there is a NUL inside or a surrogate alone.

`CreateTask` passes its arguments as an array of such strings, in which a null reference is a
null pointer.

## Main definitions

* `toUtf8`, `marshal` — a string of the CLR as native code reads it.
* `text` — what arrives of it.
* `createTask`, `Config.native` — the calls that a constructor and the `With` methods make.
* `taskOf`, `Config.arg` — the same calls in terms of texts.
* `Use`, `written` — a managed program on one thread, and what it has written to one task.

## Main results

* `strings_arrive` — **a string arrives as its text, which is the string exactly when it has
  neither a NUL nor an unpaired surrogate**.
* `newTask_createTask`, `setter?_native` — the native calls mean what the managed ones say.
* `spawned_as_written` — **a task spawns what its owner has written**.
-/

namespace AerCore

/-- What comes before the first `a` is everything if there is none. -/
theorem takeWhile_ne_of_not_mem {α : Type*} [DecidableEq α] {a : α} {l : List α} (h : a ∉ l) :
    l.takeWhile (· ≠ a) = l := by
  apply List.takeWhile_eq_self_iff.mpr
  intro b hb
  apply decide_eq_true
  rintro rfl
  exact h hb

/-- The C string at the address of some bytes ends before the first NUL. -/
def CStr.upToNul (bytes : List UInt8) : CStr where
  bytes := bytes.takeWhile (· ≠ 0)
  noNul h := by simpa using List.mem_takeWhile_imp h

namespace Managed

/-! ### Strings -/

/-- A string of the CLR: code units of UTF-16, with any values. -/
abbrev ClrString := List UInt16

/-- `StringToCoTaskMemUTF8`, and the marshaller for `LPUTF8Str`. -/
def toUtf8 (s : ClrString) : List UInt8 := Utf8.bytes (Utf16.decode s) ++ [0]

/-- A string as native code reads it. -/
def nativeString (s : ClrString) : CStr := .upToNul (toUtf8 s)

/-- A reference as native code reads it: null is a null pointer. -/
def marshal (s : Option ClrString) : Option CStr := s.map nativeString

/-- What arrives of a string. -/
def text (s : ClrString) : String := .ofList (Utf16.decode (s.takeWhile (· ≠ 0)))

theorem toStr_nativeString (s : ClrString) : (nativeString s).toStr = some (text s) := by
  have hbytes : (nativeString s).bytes = Utf8.bytes (Utf16.decode (s.takeWhile (· ≠ 0))) := by
    rw [Utf16.decode_takeWhile]
    exact Utf8.bytes_takeWhile _
  rw [CStr.toStr, hbytes]
  exact Utf8.fromUTF8?_bytes _

theorem encode_text_iff (s : ClrString) :
    Utf16.encode (text s).toList = s ↔ Utf16.paired s = true ∧ 0 ∉ s := by
  have htext : (text s).toList = Utf16.decode (s.takeWhile (· ≠ 0)) := String.toList_ofList
  rw [htext]
  constructor
  · intro h
    have hpaired := Utf16.paired_encode (Utf16.decode (s.takeWhile (· ≠ 0)))
    rw [h] at hpaired
    refine ⟨hpaired, ?_⟩
    rw [← h]
    apply Utf16.zero_notMem_encode
    rw [Utf16.decode_takeWhile]
    intro hmem
    simpa using List.mem_takeWhile_imp hmem
  · rintro ⟨hpaired, hzero⟩
    rw [takeWhile_ne_of_not_mem hzero]
    exact (Utf16.encode_decode_iff s).mpr hpaired

/-- A text without a NUL is the text of its own code units. -/
theorem text_encode {t : String} (h : '\x00' ∉ t.toList) : text (Utf16.encode t.toList) = t := by
  rw [text, takeWhile_ne_of_not_mem (Utf16.zero_notMem_encode h), Utf16.decode_encode,
    String.ofList_toList]

/-- **A string arrives as its text**, whatever its code units, and that is the string itself
exactly when its surrogates come in pairs and it has no NUL; every text without a NUL can be
sent. -/
theorem strings_arrive :
    (∀ s : ClrString, (nativeString s).toStr = some (text s) ∧
      (Utf16.encode (text s).toList = s ↔ Utf16.paired s = true ∧ 0 ∉ s)) ∧
    ∀ t : String, '\x00' ∉ t.toList → (nativeString (Utf16.encode t.toList)).toStr = some t := by
  refine ⟨fun s => ⟨toStr_nativeString s, encode_text_iff s⟩, fun t ht => ?_⟩
  rw [toStr_nativeString, text_encode ht]

/-! ### The constructor -/

/-- `CreateTask`, with the panic inside `aer_task_new` if there is one. -/
def createTask (program : ClrString) (args : List (Option ClrString))
    (panic : Option PanicPayload) : Call :=
  if args = [] then .new (marshal (some program)) none 0 panic
  else .new (marshal (some program)) (some fun i => marshal args[i]?.join) args.length panic

/-- The task that a constructor describes: there is none if a reference among its arguments is
null, or if there are too many of them. -/
def taskOf (program : ClrString) (args : List (Option ClrString)) : Option Task :=
  if maxArgsLen < args.length then none
  else (args.mapM (Option.map text)).map (Task.new (text program))

theorem toStr_marshal (s : Option ClrString) : (marshal s).bind CStr.toStr = s.map text := by
  cases s with
  | none => rfl
  | some s => exact toStr_nativeString s

/-- The loop over the array reads one argument after the other. -/
theorem mapM_args (args : List (Option ClrString)) :
    ((List.range args.length).mapM fun i =>
        ((some fun i : ℕ => marshal args[i]?.join).bind (· i)).bind CStr.toStr) =
      args.mapM (Option.map text) := by
  have hread : (fun i : ℕ => ((some fun i : ℕ => marshal args[i]?.join).bind (· i)).bind
      CStr.toStr) = (fun a : Option (Option ClrString) => a.join.map text) ∘ fun i => args[i]? := by
    funext i
    exact toStr_marshal _
  have hargs : (List.range args.length).map (fun i => args[i]?) = args.map some := by
    apply List.ext_getElem
    · simp
    · intro i h _
      simp at h
      simp [h]
  rw [hread, ← List.mapM_map, hargs, List.mapM_map]
  rfl

/-- **The native constructor makes the task that the managed one describes.** -/
theorem newTask_createTask {program : ClrString} {args : List (Option ClrString)}
    {panic : Option PanicPayload} {p : Option CStr} {as : Option (ℕ → Option CStr)} {n : ℕ}
    (h : createTask program args panic = .new p as n panic) :
    newTask p as n = taskOf program args := by
  unfold createTask at h
  split at h
  · next hnil =>
    subst hnil
    cases h
    simp [newTask, marshal, toStr_nativeString, taskOf, maxArgsLen]
  · next hne =>
    cases h
    simp only [newTask, marshal, Option.map_some, toStr_nativeString, taskOf, Option.isNone_some,
      Bool.false_eq_true, and_false, if_false]
    rw [← mapM_args]
    rfl

/-! ### The `With` methods -/

/-- What a `With` method is called with; a reference may be null.  The number of milliseconds is
the one that `WithTimeout` has computed from its `TimeSpan`. -/
inductive Config
  | timeout (ms : UInt64)
  | captureOutput (capture : Bool)
  | env (key value : Option ClrString)
  | clearEnv (clear : Bool)
  | cwd (path : Option ClrString)

/-- The native call on the task behind `p`. -/
def Config.native (p : ℕ) (panic : Option PanicPayload) : Config → Call
  | .timeout ms => .withTimeout (some p) ms panic
  | .captureOutput capture => .withCaptureOutput (some p) capture panic
  | .env key value => .setEnv (some p) (marshal key) (marshal value) panic
  | .clearEnv clear => .setClearEnv (some p) clear panic
  | .cwd path => .setCwd (some p) (marshal path) panic

/-- What the native call makes of it, in terms of texts: no string is invalid UTF-8. -/
def Config.arg : Config → Arg
  | .timeout ms => .ok (.timeout ms.toNat)
  | .captureOutput capture => .ok (.captureOutput capture)
  | .env (some key) (some value) =>
      if text key = "" ∨ '=' ∈ (text key).toList then .invalid
      else .ok (.env (text key) (text value))
  | .env _ _ => .null
  | .clearEnv clear => .ok (.clearEnv clear)
  | .cwd (some path) => if text path = "" then .invalid else .ok (.cwd (text path))
  | .cwd none => .null

theorem setter?_native (c : Config) (p : ℕ) (panic : Option PanicPayload) :
    (c.native p panic).setter? = some (some p, c.arg, panic) := by
  cases c with
  | env key value =>
    cases key <;> cases value <;>
      simp [Config.native, Call.setter?, Config.arg, envArg, marshal, toStr_nativeString]
  | cwd path =>
    cases path <;> simp [Config.native, Call.setter?, Config.arg, cwdArg, marshal,
      toStr_nativeString]
  | _ => rfl

/-! ### Managed programs -/

/-- A call that a managed program makes. -/
inductive Use
  /-- A constructor. -/
  | create (program : ClrString) (args : List (Option ClrString))
  /-- A `With` method. -/
  | configure (p : ℕ) (c : Config)
  /-- The calls of `RunCore` and its callback, and of the handles when they are released. -/
  | makeCancelHandle (p : ℕ)
  | cancel (h : ℕ)
  | run (p : ℕ)
  | runReturns (o : RunOutcome)
  | cancelFree (h : ℕ)
  | taskFree (p : ℕ)

/-- The native call. -/
def Use.native : Use → Call
  | .create program args => createTask program args none
  | .configure p c => c.native p none
  | .makeCancelHandle p => .makeCancelHandle (some p) none
  | .cancel h => .cancel (some h) none
  | .run p => .run (some p)
  | .runReturns o => .runReturns o
  | .cancelFree h => .cancelFree (some h)
  | .taskFree p => .taskFree (some p)

/-- A use, with the answer of its native call. -/
def nativeStep (l : Use × Ret) : Call × Ret := (l.1.native, l.2)

/-- The builder of a `With` method on `p` that has returned. -/
def writes? (p : ℕ) : Use × Ret → Option Builder
  | (.configure q c, .code .ok) =>
      match c.arg with
      | .ok b => if q = p then some b else none
      | _ => none
  | _ => none

/-- What has been written to `p`. -/
def written (p : ℕ) (hist : List (Use × Ret)) : List Builder := hist.filterMap (writes? p)

/-- `p` has been run. -/
def hasRun (p : ℕ) (hist : List (Use × Ret)) : Bool :=
  hist.any fun l => match l.1 with
    | .run q => decide (q = p)
    | _ => false

theorem okBuilder?_nativeStep (p : ℕ) (l : Use × Ret) :
    okBuilder? p (nativeStep l) = writes? p l := by
  obtain ⟨u, r⟩ := l
  cases u with
  | configure q c =>
    simp only [okBuilder?, nativeStep, Use.native, setter?_native, writes?]
    cases r with
    | code e => cases e <;> cases harg : c.arg <;> simp [harg]
    | _ => simp
  | create program args =>
    apply okBuilder?_of_not_setter
    simp only [Use.native, createTask]
    split <;> rfl
  | _ => rfl

theorem chain_native (p : ℕ) (hist : List (Use × Ret)) :
    chain p (hist.map nativeStep) = written p hist := by
  rw [chain, List.filterMap_map, written]
  congr 1
  funext l
  exact okBuilder?_nativeStep p l

theorem ran_native (p : ℕ) (hist : List (Use × Ret)) :
    ran p (hist.map nativeStep) = hasRun p hist := by
  rw [ran, List.any_map, hasRun]
  congr 1
  funext l
  obtain ⟨u, r⟩ := l
  cases u with
  | configure q c => exact Call.runs_of_setter (setter?_native c q none)
  | create program args =>
    simp only [Function.comp, nativeStep, Use.native, createTask]
    split <;> rfl
  | run q => simp [nativeStep, Use.native, Call.runs]
  | _ => rfl

theorem not_builderPanics (l : Use × Ret) : (nativeStep l).1.builderPanics = false := by
  obtain ⟨u, r⟩ := l
  cases u with
  | configure q c => simp [nativeStep, Use.native, Call.builderPanics, setter?_native]
  | create program args =>
    simp only [nativeStep, Use.native, createTask]
    split <;> rfl
  | _ => rfl

/-- **A task spawns what its owner has written.**  Whatever a program does with this task and
others, nothing is spawned before the task is run, and by its run one process: with the texts of
the constructor's strings, as the `With` methods that returned have changed them in turn. -/
theorem spawned_as_written {strerror : ℤ → String} {hist : List (Use × Ret)} {s : Ffi} {p : ℕ}
    {program : ClrString} {args : List (Option ClrString)}
    (h : Lts.exec (Ffi.step strerror) Ffi.init (hist.map nativeStep) = some s)
    (hnew : (.create program args, .task (some p)) ∈ hist) :
    ∃ t, taskOf program args = some t ∧
      s.spawnsOf p =
        if hasRun p hist then [((written p hist).foldl Task.build t).spawnRequest] else [] := by
  obtain ⟨q, as, n, hcall⟩ : ∃ q as n, createTask program args none = .new q as n none := by
    unfold createTask
    split <;> exact ⟨_, _, _, rfl⟩
  have hpanic : ∀ l ∈ hist.map nativeStep, l.1.builderPanics = false := by
    intro l hl
    obtain ⟨l', -, rfl⟩ := List.mem_map.mp hl
    exact not_builderPanics l'
  have hmem : (.new q as n none, .task (some p)) ∈ hist.map nativeStep := by
    rw [← hcall]
    exact List.mem_map.mpr ⟨_, hnew, rfl⟩
  obtain ⟨-, t, hvalid, hf⟩ := (chained_of_exec h hpanic p).follows q as n hmem
  refine ⟨t, (newTask_createTask hcall).symm.trans hvalid, ?_⟩
  rw [← ran_native, ← chain_native]
  exact hf.spawned

/-- An argument has a NUL inside, a variable is set, an empty name and a null path are refused,
and the task is run. -/
def writtenRun : List (Use × Ret) :=
  [(.create [0x78] [some [0x61, 0, 0x62]], .task (some 0)),
    (.configure 0 (.env (some [0x41]) (some [0xD800])), .code .ok),
    (.configure 0 (.env (some []) (some [0x31])), .code .invalidArgument),
    (.configure 0 (.cwd none), .code .nullPointer),
    (.run 0, .entered), (.runReturns (.returned (.ok ())), .code .ok)]

/-- The argument ends before its NUL, and the lone surrogate has become a replacement. -/
theorem writtenRun_spawned_as_written :
    ∃ s t, Lts.exec (Ffi.step fun _ => "") Ffi.init (writtenRun.map nativeStep) = some s ∧
      s.spawnsOf 0 = [⟨"x", ["a"], [("A", "\uFFFD")], false, none⟩] ∧
      taskOf [0x78] [some [0x61, 0, 0x62]] = some t ∧
      s.spawnsOf 0 = [((written 0 writtenRun).foldl Task.build t).spawnRequest] := by
  obtain ⟨s, hs, hspawns⟩ : ∃ s,
      Lts.exec (Ffi.step fun _ => "") Ffi.init (writtenRun.map nativeStep) = some s ∧
        s.spawnsOf 0 = [⟨"x", ["a"], [("A", "\uFFFD")], false, none⟩] :=
    Lts.exists_exec_of_any (by decide +kernel)
  obtain ⟨t, ht, hwritten⟩ := spawned_as_written (p := 0) hs (.head _)
  exact ⟨s, t, hs, hspawns, ht, hwritten⟩

end Managed

end AerCore
