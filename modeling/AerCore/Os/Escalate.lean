import AerCore.Os.Kill
import Mathlib.Algebra.Group.Nat.Defs

/-!
# The escalation of `kill_escalating` in time

`UnixProcess::kill_escalating` as the sequential function it is, with the clock it reads and
every `killpg` and `kill` it makes.  The OS and the clock are two sequences: what a call is
answered, and how much later than it has to each thing happens.  So the clock is any that
never goes back, and a sleep takes at least as long as was asked for.

`killEscalatingStep` is the same function without the times, on a tree that says which
answers are possible.

## Main definitions

* `Sent` — a call of `killpg` or `kill`, with its answer and its time.
* `Escalation.next`, `Escalation.run` — the function, one call at a time.
* `Escalated` — what the calls of a finished escalation look like.

## Main results

* `Escalation.rank_next` — each step brings the function nearer to its return.
* `kill_escalating_returns_and_escalates` — **it returns, and escalates as it should**, for
  every sequence of answers and every clock.
* `Escalation.run_refines` — it refines `killEscalatingStep`.
-/

namespace AerCore

/-! ### Signals -/

/-- Whom a signal goes to: `killpg(pgid, _)` or `kill(pid, _)`. -/
inductive Target
  | group
  | pid
  deriving DecidableEq, Repr

/-- What is sent: signal 0, `SIGTERM` or `SIGKILL`. -/
inductive Signal
  | probe
  | term
  | kill
  deriving DecidableEq, Repr

/-- A call of `killpg` or `kill`: success, `ESRCH` or another `errno`, at some time. -/
structure Sent where
  /-- The group or the pid. -/
  target : Target
  /-- The signal. -/
  signal : Signal
  /-- The answer. -/
  reply : Reply
  /-- When the call is made. -/
  time : ℕ
  deriving DecidableEq, Repr

/-! ### Time -/

/-- `Duration::from_millis(25)`, in nanoseconds. -/
def pollInterval : ℕ := 25000000

/-- The first time that is not an `Instant`: its seconds do not fit an `i64`. -/
def instantEnd : ℕ := 2 ^ 63 * 1000000000

/-- The two graces in use, in nanoseconds. -/
def Grace.nanos : Grace → ℕ
  | .zero => 0
  | .killGrace => 5000000000

/-! ### The function -/

/-- Where the function stands. -/
inductive EscalatePc
  /-- Before `killpg(pgid, SIGTERM)`. -/
  | term
  /-- The group answered `ESRCH`; before `kill(pid, SIGTERM)`. -/
  | termPid
  /-- Before `Instant::now() + grace`. -/
  | deadline
  /-- In the loop, before `killpg(pgid, 0)`. -/
  | probeGroup (deadline : ℕ)
  /-- The group answered `ESRCH`; before `kill(pid, 0)`. -/
  | probePid (deadline : ℕ)
  /-- The probe answered "alive"; before `Instant::now()`. -/
  | clock (deadline : ℕ)
  /-- Before the sleep, with the time that was read. -/
  | sleep (deadline now : ℕ)
  /-- Before `killpg(pgid, SIGKILL)`. -/
  | kill
  /-- The group answered `ESRCH`; before `kill(pid, SIGKILL)`. -/
  | killPid
  /-- It has returned. -/
  | done (res : Except AerError Unit)
  /-- The deadline is not an `Instant`. -/
  | panicked
  deriving DecidableEq

/-- A call of the function: its place, the time, and the calls it has made. -/
structure Escalation where
  /-- Where it stands. -/
  pc : EscalatePc
  /-- The time of the last thing that happened. -/
  time : ℕ
  /-- The calls it has made, oldest first. -/
  calls : List Sent
  deriving DecidableEq

namespace Escalation

/-- It makes a call, `late` after the last thing that happened, and goes on at `pc`. -/
def call (s : Escalation) (target : Target) (signal : Signal) (r : Reply) (late : ℕ)
    (pc : EscalatePc) : Escalation :=
  ⟨pc, s.time + late, s.calls ++ [⟨target, signal, r, s.time + late⟩]⟩

/-- The next thing the function does, answered `r` if it is a call and `late` later than it
has to be. -/
def next (grace : ℕ) (r : Reply) (late : ℕ) (s : Escalation) : Escalation :=
  match s.pc with
  | .term => s.call .group .term r late
      (match r with
        | .present => .deadline
        | .absent => .termPid
        | .error e => .done (.error (.killFailed e)))
  | .termPid => s.call .pid .term r late .deadline
  | .deadline =>
      -- `Instant + Duration` panics on overflow
      { s with
        pc := if s.time + late + grace < instantEnd then .probeGroup (s.time + late + grace)
          else .panicked
        time := s.time + late }
  | .probeGroup d => s.call .group .probe r late (if r = .absent then .probePid d else .clock d)
  | .probePid d =>
      s.call .pid .probe r late (if r = .absent then .done (.ok ()) else .clock d)
  | .clock d =>
      { s with
        pc := if d ≤ s.time + late then .kill else .sleep d (s.time + late)
        time := s.time + late }
  | .sleep d now =>
      { s with pc := .probeGroup d, time := s.time + min pollInterval (d - now) + late }
  | .kill => s.call .group .kill r late
      (match r with
        | .present => .done (.ok ())
        | .absent => .killPid
        | .error e => .done (.error (.killFailed e)))
  | .killPid => s.call .pid .kill r late (.done (.ok ()))
  | .done _ | .panicked => s

/-- The function after `n` things it did, called at `start`. -/
def run (grace : ℕ) (os : ℕ → Reply) (late : ℕ → ℕ) (start : ℕ) : ℕ → Escalation
  | 0 => ⟨.term, start, []⟩
  | n + 1 => (run grace os late start n).next grace (os n) (late n)

end Escalation

/-! ### What it should do -/

/-- A signal to the group, and to the pid if the group answered `ESRCH`. -/
inductive Volley (signal : Signal) : List Sent → Prop
  | group {r τ} (hr : r ≠ .absent) : Volley signal [⟨.group, signal, r, τ⟩]
  | both {r τ τ'} : Volley signal [⟨.group, signal, .absent, τ⟩, ⟨.pid, signal, r, τ'⟩]

/-- The calls of an escalation that returned `res`. -/
structure Escalated (start grace : ℕ) (calls : List Sent) (res : Except AerError Unit) : Prop where
  /-- `SIGTERM`, and then `SIGKILL` or nothing, each to the group and then to the pid. -/
  signals : ∃ l l', calls.filter (·.signal ≠ .probe) = l ++ l' ∧ Volley .term l ∧
    (l' = [] ∨ Volley .kill l')
  /-- Without `SIGKILL` it is content only with a tree that is gone. -/
  gone : res = .ok () → (∀ c ∈ calls, c.signal ≠ .kill) → ∃ pre τ τ',
    calls = pre ++ [⟨.group, .probe, .absent, τ⟩, ⟨.pid, .probe, .absent, τ'⟩] ∧
      ∃ c ∈ pre, c.signal = .term
  /-- `SIGKILL` comes after the grace period, and after a probe that answered "alive". -/
  graceful : ∀ pre c post, calls = pre ++ c :: post → c.signal = .kill →
    start + grace ≤ c.time ∧ ∃ p ∈ pre, p.signal = .probe ∧ p.reply ≠ .absent
  /-- It fails exactly if a signal to the group is refused. -/
  refused : (∃ e, res = .error (.killFailed e)) ↔
    ∃ c ∈ calls, c.target = .group ∧ c.signal ≠ .probe ∧ ∃ e, c.reply = .error e
  /-- After a refused `SIGTERM` it sends nothing. -/
  silent : ∀ c ∈ calls, c.target = .group → c.signal = .term → (∃ e, c.reply = .error e) →
    calls = [c]

/-! ### It returns -/

/-- How many sleeps fit before a deadline. -/
def polls (remaining : ℕ) : ℕ := (remaining + pollInterval - 1) / pollInterval

namespace Escalation

/-- A bound on what is left to do. -/
def rank (grace : ℕ) (s : Escalation) : ℕ :=
  match s.pc with
  | .term => 4 * polls grace + 8
  | .termPid => 4 * polls grace + 7
  | .deadline => 4 * polls grace + 6
  | .probeGroup d => 4 * polls (d - s.time) + 5
  | .probePid d => 4 * polls (d - s.time) + 4
  | .clock d => 4 * polls (d - s.time) + 3
  | .sleep d now => 4 * polls (d - now) + 2
  | .kill => 2
  | .killPid => 1
  | .done _ | .panicked => 0

/-- A sleep is asked for only before the deadline, so `deadline - now` does not underflow. -/
def Early (s : Escalation) : Prop :=
  ∀ d now, s.pc = .sleep d now → now < d ∧ now ≤ s.time

variable {grace : ℕ} {r : Reply} {late : ℕ} {s : Escalation}

theorem Early.next (h : s.Early) : (s.next grace r late).Early := by
  obtain ⟨pc, time, calls⟩ := s
  intro d now hpc
  cases pc with
  | term | kill => cases r <;> cases hpc
  | probeGroup | probePid => cases r <;> cases hpc
  | deadline =>
    simp only [Escalation.next] at hpc
    split at hpc <;> cases hpc
  | clock d' =>
    simp only [Escalation.next] at hpc ⊢
    split at hpc
    · cases hpc
    · next hlt =>
      cases hpc
      exact ⟨Nat.lt_of_not_le hlt, Nat.le_refl _⟩
  | termPid | sleep | killPid => cases hpc
  | done | panicked => exact h d now hpc

theorem polls_mono {x y : ℕ} (h : x ≤ y) : polls x ≤ polls y :=
  Nat.div_le_div_right (by omega)

/-- A sleep uses up one of the polls that are left. -/
theorem polls_after_sleep {d now time : ℕ} (hnow : now < d)
    (htime : now + min pollInterval (d - now) ≤ time) : polls (d - time) + 1 ≤ polls (d - now) := by
  simp only [polls, pollInterval] at *
  omega

/-- Each step brings the function nearer to its return. -/
theorem rank_next (h : s.Early) (hdone : ∀ res, s.pc ≠ .done res) (hpanic : s.pc ≠ .panicked) :
    (s.next grace r late).rank grace < s.rank grace := by
  obtain ⟨pc, time, calls⟩ := s
  cases pc with
  | term => cases r <;> simp [next, call, rank]
  | termPid => simp [next, call, rank]
  | deadline => by_cases hfit : time + late + grace < instantEnd <;> simp [next, rank, hfit]
  | probeGroup d | probePid d =>
    have := polls_mono (show d - (time + late) ≤ d - time by omega)
    by_cases hr : r = .absent <;> simp only [next, call, rank, hr, if_true, if_false] <;> omega
  | clock d =>
    have := polls_mono (show d - (time + late) ≤ d - time by omega)
    by_cases hd : d ≤ time + late <;> simp only [next, rank, hd, if_true, if_false] <;> omega
  | sleep d now =>
    obtain ⟨hlt, hle⟩ := h d now rfl
    have := polls_after_sleep hlt
      (show now + min pollInterval (d - now) ≤ time + min pollInterval (d - now) + late by
        simp only at hle
        omega)
    simp only [next, rank]
    omega
  | kill => cases r <;> simp [next, call, rank]
  | killPid => simp [next, call, rank]
  | done res => exact absurd rfl (hdone res)
  | panicked => exact absurd rfl hpanic

theorem early_run (grace : ℕ) (os : ℕ → Reply) (late : ℕ → ℕ) (start n : ℕ) :
    (run grace os late start n).Early := by
  induction n with
  | zero =>
    intro d now h
    cases h
  | succ n ih => exact ih.next

/-- A function that has not returned after `n` things has at most so many left to do. -/
theorem rank_run {os : ℕ → Reply} {late : ℕ → ℕ} {start n : ℕ}
    (hdone : ∀ m < n, ∀ res, (run grace os late start m).pc ≠ .done res)
    (hpanic : ∀ m < n, (run grace os late start m).pc ≠ .panicked) :
    n + (run grace os late start n).rank grace ≤ 4 * polls grace + 8 := by
  induction n with
  | zero => simp [run, rank]
  | succ n ih =>
    have hrank := ih (fun m hm => hdone m (by omega)) fun m hm => hpanic m (by omega)
    have hnext : ((run grace os late start n).next grace (os n) (late n)).rank grace <
        (run grace os late start n).rank grace :=
      rank_next (early_run grace os late start n) (hdone n (by omega)) (hpanic n (by omega))
    simp only [run]
    omega

theorem next_eq_self (h : s.pc = .panicked ∨ ∃ res, s.pc = .done res) :
    s.next grace r late = s := by
  obtain ⟨pc, time, calls⟩ := s
  rcases h with h | ⟨res, h⟩ <;> cases h <;> rfl

/-- What has returned, or panicked, does nothing more. -/
theorem run_eq_of_ended {os : ℕ → Reply} {late : ℕ → ℕ} {start n m : ℕ}
    (h : (run grace os late start n).pc = .panicked ∨
      ∃ res, (run grace os late start n).pc = .done res) (hm : n ≤ m) :
    run grace os late start m = run grace os late start n := by
  induction hm with
  | refl => rfl
  | step _ ih => rw [run, ih, next_eq_self h]

/-- Only a deadline that is no `Instant` makes it panic. -/
theorem pc_next_ne_panicked (hpc : s.pc ≠ .panicked)
    (hfit : s.pc = .deadline → s.time + late + grace < instantEnd) :
    (s.next grace r late).pc ≠ .panicked := by
  obtain ⟨pc, time, calls⟩ := s
  cases pc with
  | term | kill => cases r <;> simp [next, call]
  | probeGroup | probePid => by_cases hr : r = .absent <;> simp [next, call, hr]
  | deadline => simp [next, hfit rfl]
  | clock d => by_cases hd : d ≤ time + late <;> simp [next, hd]
  | panicked => exact absurd rfl hpc
  | termPid | sleep | killPid | done => simp [next, call]

end Escalation

/-! ### What it has done -/

/-- `SIGTERM` has been sent and was not refused. -/
inductive Termed : List Sent → Prop
  | group {τ} : Termed [⟨.group, .term, .present, τ⟩]
  | both {r τ τ'} : Termed [⟨.group, .term, .absent, τ⟩, ⟨.pid, .term, r, τ'⟩]

/-- Since then there have only been probes. -/
def Polled (calls : List Sent) : Prop :=
  ∃ l probes, calls = l ++ probes ∧ Termed l ∧ ∀ p ∈ probes, p.signal = .probe

/-- A probe has answered "alive". -/
def SawAlive (calls : List Sent) : Prop := ∃ p ∈ calls, p.signal = .probe ∧ p.reply ≠ .absent

/-- The ways to return. -/
inductive Ended (start grace : ℕ) : List Sent → Except AerError Unit → Prop
  | refused {e τ} :
      Ended start grace [⟨.group, .term, .error e, τ⟩] (.error (.killFailed e))
  | gone {cs τ τ'} (polled : Polled cs) :
      Ended start grace
        (cs ++ [⟨.group, .probe, .absent, τ⟩, ⟨.pid, .probe, .absent, τ'⟩]) (.ok ())
  | killed {cs τ} (polled : Polled cs) (alive : SawAlive cs) (late : start + grace ≤ τ) :
      Ended start grace (cs ++ [⟨.group, .kill, .present, τ⟩]) (.ok ())
  | killRefused {cs e τ} (polled : Polled cs) (alive : SawAlive cs) (late : start + grace ≤ τ) :
      Ended start grace (cs ++ [⟨.group, .kill, .error e, τ⟩]) (.error (.killFailed e))
  | killedPid {cs r τ τ'} (polled : Polled cs) (alive : SawAlive cs) (late : start + grace ≤ τ)
      (late' : start + grace ≤ τ') :
      Ended start grace
        (cs ++ [⟨.group, .kill, .absent, τ⟩, ⟨.pid, .kill, r, τ'⟩]) (.ok ())

/-- The calls made so far, by the place of the function. -/
def HistoryAt (start grace time : ℕ) (calls : List Sent) : EscalatePc → Prop
  | .term => calls = []
  | .termPid => ∃ τ, calls = [⟨.group, .term, .absent, τ⟩]
  | .deadline => Termed calls
  | .probeGroup d | .sleep d _ => Polled calls ∧ start + grace ≤ d
  | .probePid d => start + grace ≤ d ∧
      ∃ cs τ, Polled cs ∧ calls = cs ++ [⟨.group, .probe, .absent, τ⟩]
  | .clock d => Polled calls ∧ SawAlive calls ∧ start + grace ≤ d
  | .kill => Polled calls ∧ SawAlive calls ∧ start + grace ≤ time
  | .killPid => start + grace ≤ time ∧ ∃ cs τ, Polled cs ∧ SawAlive cs ∧ start + grace ≤ τ ∧
      calls = cs ++ [⟨.group, .kill, .absent, τ⟩]
  | .done res => Ended start grace calls res
  | .panicked => True

/-- Where the function stands tells what it has done. -/
def Escalation.History (start grace : ℕ) (s : Escalation) : Prop :=
  start ≤ s.time ∧ HistoryAt start grace s.time s.calls s.pc

theorem Polled.probe {calls : List Sent} (h : Polled calls) (target : Target) (r : Reply) (τ : ℕ) :
    Polled (calls ++ [⟨target, .probe, r, τ⟩]) := by
  obtain ⟨l, probes, rfl, hl, hprobes⟩ := h
  refine ⟨l, probes ++ [⟨target, .probe, r, τ⟩], by simp, hl, fun p hp => ?_⟩
  rcases List.mem_append.mp hp with hp | hp
  · exact hprobes p hp
  · rw [List.mem_singleton.mp hp]

theorem Termed.polled {calls : List Sent} (h : Termed calls) : Polled calls :=
  ⟨calls, [], by simp, h, by simp⟩

theorem sawAlive_concat (calls : List Sent) {target : Target} {r : Reply} (hr : r ≠ .absent)
    (τ : ℕ) : SawAlive (calls ++ [⟨target, .probe, r, τ⟩]) :=
  ⟨⟨target, .probe, r, τ⟩, by simp, rfl, hr⟩

namespace Escalation

variable {start grace : ℕ} {r : Reply} {late : ℕ} {s : Escalation}

theorem History.next (h : s.History start grace) : (s.next grace r late).History start grace := by
  obtain ⟨pc, time, calls⟩ := s
  obtain ⟨htime, h⟩ := h
  simp only at htime h
  cases pc with
  | term =>
    obtain rfl : calls = [] := h
    refine ⟨by simp only [Escalation.next, call]; omega, ?_⟩
    cases r with
    | present => exact .group
    | absent => exact ⟨_, rfl⟩
    | error e => exact .refused
  | termPid =>
    obtain ⟨τ, rfl⟩ := h
    exact ⟨by simp only [Escalation.next, call]; omega, .both⟩
  | deadline =>
    refine ⟨by simp only [Escalation.next]; omega, ?_⟩
    by_cases hfit : time + late + grace < instantEnd
    · simp only [Escalation.next, hfit, if_true]
      exact ⟨Termed.polled h, by omega⟩
    · simp only [Escalation.next, hfit, if_false]
      trivial
  | probeGroup d =>
    obtain ⟨hpolled, hd⟩ := h
    refine ⟨by simp only [Escalation.next, call]; omega, ?_⟩
    by_cases hr : r = .absent
    · subst hr
      exact ⟨hd, calls, _, hpolled, rfl⟩
    · simp only [Escalation.next, call, hr, if_false]
      exact ⟨hpolled.probe _ _ _, sawAlive_concat _ hr _, hd⟩
  | probePid d =>
    obtain ⟨hd, cs, τ, hpolled, rfl⟩ := h
    refine ⟨by simp only [Escalation.next, call]; omega, ?_⟩
    by_cases hr : r = .absent
    · subst hr
      simp only [Escalation.next, call, if_true, List.append_assoc]
      exact .gone hpolled
    · simp only [Escalation.next, call, hr, if_false]
      exact ⟨(hpolled.probe _ _ _).probe _ _ _, sawAlive_concat _ hr _, hd⟩
  | clock d =>
    obtain ⟨hpolled, halive, hd⟩ := h
    refine ⟨by simp only [Escalation.next]; omega, ?_⟩
    by_cases hexpired : d ≤ time + late
    · simp only [Escalation.next, hexpired, if_true]
      exact ⟨hpolled, halive, by omega⟩
    · simp only [Escalation.next, hexpired, if_false]
      exact ⟨hpolled, hd⟩
  | sleep d now => exact ⟨by simp only [Escalation.next]; omega, h⟩
  | kill =>
    obtain ⟨hpolled, halive, hlate⟩ := h
    have hnow : start + grace ≤ time + late := by omega
    refine ⟨by simp only [Escalation.next, call]; omega, ?_⟩
    cases r with
    | present => exact .killed hpolled halive hnow
    | absent => exact ⟨hnow, calls, _, hpolled, halive, hnow, rfl⟩
    | error e => exact .killRefused hpolled halive hnow
  | killPid =>
    obtain ⟨hlate, cs, τ, hpolled, halive, hτ, rfl⟩ := h
    refine ⟨by simp only [Escalation.next, call]; omega, ?_⟩
    simp only [Escalation.next, call, List.append_assoc]
    exact .killedPid hpolled halive hτ (by omega)
  | done | panicked => exact ⟨htime, h⟩

theorem history_run (grace : ℕ) (os : ℕ → Reply) (late : ℕ → ℕ) (start n : ℕ) :
    (run grace os late start n).History start grace := by
  induction n with
  | zero => exact ⟨Nat.le_refl _, rfl⟩
  | succ n ih => exact ih.next

end Escalation

/-! ### It escalates as it should -/

/-- Every call before the kill is `SIGTERM` or a probe. -/
theorem Polled.signal_ne_kill {calls : List Sent} (h : Polled calls) :
    ∀ c ∈ calls, c.signal ≠ .kill := by
  obtain ⟨l, probes, rfl, hl, hprobes⟩ := h
  intro c hc
  rcases List.mem_append.mp hc with hc | hc
  · cases hl <;> simp at hc <;> rcases hc with rfl | rfl <;> simp
  · simp [hprobes c hc]

/-- The signals before the kill are those of `SIGTERM`, and none was refused. -/
theorem Polled.signals {calls : List Sent} (h : Polled calls) :
    Volley .term (calls.filter (·.signal ≠ .probe)) ∧
      ∀ c ∈ calls, c.target = .group → c.signal ≠ .probe → ∀ e, c.reply ≠ .error e := by
  obtain ⟨l, probes, rfl, hl, hprobes⟩ := h
  have hnone : probes.filter (·.signal ≠ .probe) = [] := by
    simpa using hprobes
  refine ⟨?_, fun c hc htarget hsignal e => ?_⟩
  · rw [List.filter_append, hnone, List.append_nil]
    cases hl with
    | group => exact .group (by simp)
    | both => exact .both
  · rcases List.mem_append.mp hc with hc | hc
    · cases hl <;> simp at hc <;> rcases hc with rfl | rfl <;> simp_all
    · exact absurd (hprobes c hc) hsignal

/-- An escalation that came to `SIGKILL`. -/
theorem escalated_of_volley {start grace : ℕ} {cs l : List Sent} {res : Except AerError Unit}
    (polled : Polled cs) (alive : SawAlive cs) (volley : Volley .kill l)
    (late : ∀ c ∈ l, start + grace ≤ c.time)
    (hres : (∃ e, res = .error (.killFailed e)) ↔
      ∃ c ∈ l, c.target = .group ∧ ∃ e, c.reply = .error e) :
    Escalated start grace (cs ++ l) res := by
  obtain ⟨hterm, hgranted⟩ := polled.signals
  have hkill : ∀ c ∈ l, c.signal = .kill := by
    cases volley <;> simp
  have hfilter : l.filter (·.signal ≠ .probe) = l :=
    List.filter_eq_self.mpr fun c hc => by simp [hkill c hc]
  constructor
  case signals => exact ⟨_, l, by rw [List.filter_append, hfilter], hterm, .inr volley⟩
  case gone =>
    intro _ hnone
    have hne : l ≠ [] := by cases volley <;> simp
    obtain ⟨c, hc⟩ := List.exists_mem_of_ne_nil l hne
    exact absurd (hkill c hc) (hnone c (List.mem_append_right _ hc))
  case graceful =>
    intro pre c post hcalls hc
    -- the first `SIGKILL` comes after all of `cs`
    rcases List.append_eq_append_iff.mp hcalls with ⟨x, rfl, hl⟩ | ⟨x, rfl, hx⟩
    · obtain ⟨p, hp, hprobe⟩ := alive
      exact ⟨late c (by rw [hl]; simp), p, List.mem_append_left _ hp, hprobe⟩
    · cases x with
      | nil =>
        obtain ⟨p, hp, hprobe⟩ := alive
        refine ⟨late c ?_, p, by simpa using hp, hprobe⟩
        simp only [List.nil_append] at hx
        rw [← hx]
        simp
      | cons c' x =>
        obtain ⟨rfl, -⟩ := List.cons.inj hx
        exact absurd hc (polled.signal_ne_kill c (by simp))
  case refused =>
    rw [hres]
    constructor
    · rintro ⟨c, hc, htarget, he⟩
      exact ⟨c, List.mem_append_right _ hc, htarget, by simp [hkill c hc], he⟩
    · rintro ⟨c, hc, htarget, hsignal, e, he⟩
      rcases List.mem_append.mp hc with hc | hc
      · exact absurd he (hgranted c hc htarget hsignal e)
      · exact ⟨c, hc, htarget, e, he⟩
  case silent =>
    rintro c hc htarget hsignal ⟨e, he⟩
    rcases List.mem_append.mp hc with hc | hc
    · exact absurd he (hgranted c hc htarget (by simp [hsignal]) e)
    · rw [hkill c hc] at hsignal
      cases hsignal

theorem Ended.escalated {start grace : ℕ} {calls : List Sent} {res : Except AerError Unit}
    (h : Ended start grace calls res) : Escalated start grace calls res := by
  cases h with
  | @refused e τ =>
    constructor
    case signals => exact ⟨_, [], by simp, .group (r := .error e) (τ := τ) (by simp), .inl rfl⟩
    case gone => intro h; cases h
    case graceful =>
      intro pre c post hcalls hc
      have hmem : c ∈ [⟨.group, .term, .error e, τ⟩] := by rw [hcalls]; simp
      rw [List.mem_singleton.mp hmem] at hc
      cases hc
    case refused => simp
    case silent =>
      intro c hc _ _ _
      rw [List.mem_singleton.mp hc]
  | @gone cs τ τ' polled =>
    -- the two last probes are calls like those before
    have hall : Polled (cs ++ [⟨.group, .probe, .absent, τ⟩, ⟨.pid, .probe, .absent, τ'⟩]) := by
      simpa using (polled.probe .group .absent τ).probe .pid .absent τ'
    obtain ⟨hterm, hgranted⟩ := hall.signals
    constructor
    case signals => exact ⟨_, [], (List.append_nil _).symm, hterm, .inl rfl⟩
    case gone =>
      intro _ _
      refine ⟨cs, τ, τ', rfl, ?_⟩
      obtain ⟨l, probes, rfl, hl, -⟩ := polled
      cases hl <;> exact ⟨_, List.mem_append_left _ List.mem_cons_self, rfl⟩
    case graceful =>
      intro pre c post hcalls hc
      exact absurd hc (hall.signal_ne_kill c (by rw [hcalls]; simp))
    case refused =>
      refine iff_of_false (by simp) ?_
      rintro ⟨c, hc, htarget, hsignal, e, he⟩
      exact hgranted c hc htarget hsignal e he
    case silent =>
      rintro c hc htarget hsignal ⟨e, he⟩
      exact absurd he (hgranted c hc htarget (by simp [hsignal]) e)
  | @killed cs τ polled alive late =>
    exact escalated_of_volley polled alive (.group (by simp)) (by simpa using late) (by simp)
  | killRefused polled alive late =>
    exact escalated_of_volley polled alive (.group (by simp)) (by simpa using late) (by simp)
  | killedPid polled alive late late' =>
    exact escalated_of_volley polled alive .both (by simpa using ⟨late, late'⟩) (by simp)

/-- **`kill_escalating` returns, and escalates as it should**, for every sequence of answers
and every clock, if its deadline is an `Instant`: it returns after a bounded number of steps,
`deadline - now` never underflows, and the calls it has made are those of `Escalated`. -/
theorem kill_escalating_returns_and_escalates (grace : ℕ) (os : ℕ → Reply) (late : ℕ → ℕ)
    (start : ℕ)
    (hfit : ∀ n, (Escalation.run grace os late start n).pc = .deadline →
      (Escalation.run grace os late start n).time + late n + grace < instantEnd) :
    (∀ n d now, (Escalation.run grace os late start n).pc = .sleep d now → now ≤ d) ∧
      ∃ n res, n ≤ 4 * polls grace + 8 ∧ (Escalation.run grace os late start n).pc = .done res ∧
        Escalated start grace (Escalation.run grace os late start n).calls res := by
  have hpanic : ∀ n, (Escalation.run grace os late start n).pc ≠ .panicked := by
    intro n
    induction n with
    | zero => simp [Escalation.run]
    | succ n ih => exact Escalation.pc_next_ne_panicked ih (hfit n)
  refine ⟨fun n d now h => Nat.le_of_lt (Escalation.early_run grace os late start n d now h).1, ?_⟩
  by_contra hnone
  -- it would have to have something left to do after the last step there is
  have hdone : ∀ m < 4 * polls grace + 8 + 1, ∀ res,
      (Escalation.run grace os late start m).pc ≠ .done res := by
    intro m hm res hpc
    have hended := (Escalation.history_run grace os late start m).2
    rw [hpc] at hended
    exact hnone ⟨m, res, by omega, hpc, Ended.escalated hended⟩
  have := Escalation.rank_run hdone fun m _ => hpanic m
  omega

/-- A tree that ignores `SIGTERM`, with a grace of 60 ms: it is polled four times, the last
sleep is a short one, and `SIGKILL` follows when the grace period is over. -/
theorem stubborn_tree_escalates :
    ∃ n, (Escalation.run 60000000 (fun _ => .present) (fun _ => 0) 7 n).pc = .done (.ok ()) ∧
      (Escalation.run 60000000 (fun _ => .present) (fun _ => 0) 7 n).calls =
        [⟨.group, .term, .present, 7⟩, ⟨.group, .probe, .present, 7⟩,
          ⟨.group, .probe, .present, 25000007⟩, ⟨.group, .probe, .present, 50000007⟩,
          ⟨.group, .probe, .present, 60000007⟩, ⟨.group, .kill, .present, 60000007⟩] ∧
      Escalated 7 60000000
        (Escalation.run 60000000 (fun _ => .present) (fun _ => 0) 7 n).calls (.ok ()) := by
  have hend : (Escalation.run 60000000 (fun _ => .present) (fun _ => 0) 7 14).pc =
      .done (.ok ()) := by decide +kernel
  have hfit : ∀ n, (Escalation.run 60000000 (fun _ => .present) (fun _ => 0) 7 n).pc = .deadline →
      (Escalation.run 60000000 (fun _ => .present) (fun _ => 0) 7 n).time + 0 + 60000000 <
        instantEnd := by
    intro n hn
    by_cases hlt : n < 14
    · revert hn
      revert n
      decide +kernel
    · rw [Escalation.run_eq_of_ended (.inr ⟨_, hend⟩) (by omega), hend] at hn
      cases hn
  obtain ⟨-, n, res, -, hpc, h⟩ := kill_escalating_returns_and_escalates 60000000
    (fun _ => .present) (fun _ => 0) 7 hfit
  -- a call that has returned stays as it is
  have hrun : Escalation.run 60000000 (fun _ => .present) (fun _ => 0) 7 n =
      Escalation.run 60000000 (fun _ => .present) (fun _ => 0) 7 14 := by
    rcases Nat.le_total n 14 with hle | hle
    · exact (Escalation.run_eq_of_ended (.inr ⟨_, hpc⟩) hle).symm
    · exact Escalation.run_eq_of_ended (.inr ⟨_, hend⟩) hle
  obtain rfl : res = .ok () := by
    rw [hrun, hend] at hpc
    exact (EscalatePc.done.inj hpc).symm
  exact ⟨n, hpc, by rw [hrun]; decide +kernel, h⟩

/-- `Duration::MAX`, in nanoseconds. -/
def durationMax : ℕ := 2 ^ 64 * 1000000000 - 1

/-- With a grace of `Duration::MAX` the deadline is no `Instant`: it panics after `SIGTERM` and
never returns. -/
theorem durationMax_never_returns :
    ¬∃ n res, (Escalation.run durationMax (fun _ => .present) (fun _ => 0) 0 n).pc = .done res := by
  rintro ⟨n, res, h⟩
  have hpanic : (Escalation.run durationMax (fun _ => .present) (fun _ => 0) 0 2).pc =
      .panicked := by
    decide +kernel
  by_cases hlt : n < 2
  · obtain rfl | rfl : n = 0 ∨ n = 1 := by omega
    · cases h
    · cases h
  · rw [Escalation.run_eq_of_ended (.inl hpanic) (by omega), hpanic] at h
    cases h

/-! ### Without the times -/

/-- The same place of `killEscalatingStep`; the deadline and the sleep belong to the next
probe. -/
def EscalatePc.kill? : EscalatePc → Option KillPc
  | .term => some .term
  | .termPid => some .termPid
  | .deadline | .probeGroup _ | .sleep _ _ => some (.poll .group)
  | .probePid _ => some (.poll .pid)
  | .clock _ => some .clock
  | .kill => some .kill
  | .killPid => some .killPid
  | .done res => some (.done res)
  | .panicked => none

/-- The answers the tree can give at a place. -/
def EscalatePc.possible (env : Env) (t : Tree) (r : Reply) : EscalatePc → Bool
  | .term | .probeGroup _ | .kill => t.groupReply env r
  | .termPid | .probePid _ | .killPid => t.pidReply env r
  | _ => true

/-- The deadline in the hands of the function. -/
def EscalatePc.deadline? : EscalatePc → Option ℕ
  | .probeGroup d | .probePid d | .clock d | .sleep d _ => some d
  | _ => none

/-- The step of `killEscalatingStep` that the function makes, if it is one. -/
def Escalation.act? (r : Reply) (late : ℕ) (s : Escalation) : Option KillAct :=
  match s.pc with
  | .term => some (.term r)
  | .termPid => some (.termPid r)
  | .probeGroup _ | .probePid _ => some (.probe r)
  | .clock d => some (.clock (decide (d ≤ s.time + late)))
  | .kill => some (.kill r)
  | .killPid => some (.killPid r)
  | .deadline | .sleep _ _ | .done _ | .panicked => none

namespace Escalation

variable {grace : ℕ} {r : Reply} {late : ℕ} {s : Escalation}

/-- The deadline is at most the grace away. -/
def Due (grace : ℕ) (s : Escalation) : Prop := ∀ d, s.pc.deadline? = some d → d ≤ s.time + grace

theorem Due.next (h : s.Due grace) : (s.next grace r late).Due grace := by
  obtain ⟨pc, time, calls⟩ := s
  intro d hd
  cases pc with
  | term | kill => cases r <;> cases hd
  | deadline =>
    by_cases hfit : time + late + grace < instantEnd <;>
      simp only [Escalation.next, hfit, if_true, if_false] at hd <;> cases hd
    exact Nat.le_refl _
  | probeGroup d' | probePid d' =>
    have hd' := h d' rfl
    by_cases hr : r = .absent <;>
      simp only [Escalation.next, call, hr, if_true, if_false] at hd ⊢ <;> cases hd <;>
      simp only at hd' <;> omega
  | clock d' =>
    have hd' := h d' rfl
    by_cases hexpired : d' ≤ time + late <;>
      simp only [Escalation.next, hexpired, if_true, if_false] at hd ⊢ <;> cases hd
    simp only at hd'
    omega
  | sleep d' now =>
    have hd' := h d' rfl
    cases hd
    simp only [Escalation.next] at hd' ⊢
    omega
  | termPid | killPid => cases hd
  | done | panicked => cases hd

theorem due_run (grace : ℕ) (os : ℕ → Reply) (late : ℕ → ℕ) (start n : ℕ) :
    (run grace os late start n).Due grace := by
  induction n with
  | zero =>
    intro d hd
    cases hd
  | succ n ih => exact ih.next

theorem next_refines {env : Env} {t : Tree} {g : Grace} {k k' : KillPc} (hdue : s.Due g.nanos)
    (hpossible : s.pc.possible env t r = true) (hk : s.pc.kill? = some k)
    (hk' : (s.next g.nanos r late).pc.kill? = some k') :
    match s.act? r late with
    | some a => ∃ t', killEscalatingStep env g t k a = some (t', k')
    | none => k' = k := by
  obtain ⟨pc, time, calls⟩ := s
  cases pc with
  | term =>
    cases hk
    cases r with
    | present => cases hk'; exact ⟨t, (KillMove.termPresent hpossible).step⟩
    | absent => cases hk'; exact ⟨t, (KillMove.termAbsent hpossible).step⟩
    | error e => cases hk'; exact ⟨t, (KillMove.termRefused hpossible).step⟩
  | termPid =>
    cases hk
    cases hk'
    exact ⟨t, (KillMove.termPid hpossible).step⟩
  | deadline =>
    cases hk
    by_cases hfit : time + late + g.nanos < instantEnd <;>
      simp only [next, hfit, if_true, if_false] at hk' <;> cases hk'
    rfl
  | probeGroup d =>
    cases hk
    have hgroup : t.groupReply env r = true := hpossible
    by_cases hr : r = .absent
    · subst hr
      cases hk'
      exact ⟨t, (KillMove.probeMore (by simp [treeAliveStep, hgroup])).step⟩
    · simp only [next, call, hr, if_false] at hk'
      cases hk'
      exact ⟨t, (KillMove.probeAlive (by simp [treeAliveStep, hgroup, hr])).step⟩
  | probePid d =>
    cases hk
    have hpid : t.pidReply env r = true := hpossible
    by_cases hr : r = .absent
    · subst hr
      cases hk'
      exact ⟨t, (KillMove.probeDead (by simp [treeAliveStep, hpid])).step⟩
    · simp only [next, call, hr, if_false] at hk'
      cases hk'
      exact ⟨t, (KillMove.probeAlive (by simp [treeAliveStep, hpid, hr])).step⟩
  | clock d =>
    cases hk
    by_cases hexpired : d ≤ time + late
    · simp only [next, hexpired, if_true] at hk'
      cases hk'
      simp only [act?, hexpired, decide_true]
      exact ⟨t, KillMove.expired.step⟩
    · simp only [next, hexpired, if_false] at hk'
      cases hk'
      simp only [act?, hexpired, decide_false]
      -- a grace of zero is over when the clock is read again
      refine ⟨t, (KillMove.sleep fun hg => hexpired ?_).step⟩
      have hd := hdue d rfl
      subst hg
      simp only [Grace.nanos] at hd
      omega
  | sleep d now =>
    cases hk
    cases hk'
    rfl
  | kill =>
    cases hk
    cases r with
    | present => cases hk'; exact ⟨_, (KillMove.killPresent hpossible).step⟩
    | absent => cases hk'; exact ⟨t, (KillMove.killAbsent hpossible).step⟩
    | error e => cases hk'; exact ⟨t, (KillMove.killRefused hpossible).step⟩
  | killPid =>
    cases hk
    cases hk'
    by_cases hr : r = .present
    · subst hr
      exact ⟨_, (KillMove.killPidPresent hpossible).step⟩
    · exact ⟨t, (KillMove.killPidFails hpossible hr).step⟩
  | done res =>
    cases hk
    cases hk'
    rfl
  | panicked => cases hk

/-- **The function refines `killEscalatingStep`**: with the answers a tree can give, each thing
it does is a step of it, or leaves the place as it is. -/
theorem run_refines {env : Env} {t : Tree} {g : Grace} {k k' : KillPc} (os : ℕ → Reply)
    (late : ℕ → ℕ) (start n : ℕ)
    (hpossible : (run g.nanos os late start n).pc.possible env t (os n) = true)
    (hk : (run g.nanos os late start n).pc.kill? = some k)
    (hk' : (run g.nanos os late start (n + 1)).pc.kill? = some k') :
    match (run g.nanos os late start n).act? (os n) (late n) with
    | some a => ∃ t', killEscalatingStep env g t k a = some (t', k')
    | none => k' = k :=
  next_refines (due_run g.nanos os late start n) hpossible hk hk'

end Escalation

end AerCore
