import AerCore.Cancel

/-!
# One kill for a cancellation

Two pieces of code may kill on behalf of `cancel()`: the first caller, if it finds the run
in the slot, and the wiring block of the run, if it finds the request already there.  The
caller is kept to one by the swap, and the wiring block looks at `kill_fired` first; but it
looks outside the mutex and before the probe, so both can be on their way to a kill at the
same time.

Whoever is between its decision and its kill holds a *licence*.  As long as nobody takes a
licence while another one is out or spent, there is one kill at most.

## Main definitions

* `Label.opensKill` — the first signal of a `kill_escalating` on behalf of `cancel()`.
* `Licence` — at most one licence is out or spent.
* `Uncrossed` — the two do not decide behind each other's back.

## Main results

* `cancellation_kills_at_most_once` — **one kill for a cancellation**, in the runs where
  they do not.
* `crossedCancel_kills_twice` — and two in a run where they do.
-/

namespace AerCore

variable {ι : Type*}

/-! ### Opening a kill -/

/-- Before the first OS call of `kill_escalating`. -/
def KillPc.opening : KillPc → Bool
  | .term | .terminate => true
  | _ => false

/-- The first OS call of `kill_escalating`: `SIGTERM` to the group, or the end of the job. -/
def KillAct.opens : KillAct → Bool
  | .term _ | .terminate _ => true
  | _ => false

/-- A `kill_escalating` of the tree of run `i` on behalf of `cancel()` makes its first call. -/
def Label.opensKill [DecidableEq ι] (i : ι) : Label ι → Bool
  | .main j (.kill a) | .cancel _ (.kill j a) => decide (j = i) && a.opens
  | _ => false

/-- A call of `kill_escalating` opens once, at its beginning. -/
theorem killEscalatingStep_opens {env : Env} {grace : Grace} {t t' : Tree} {k k' : KillPc}
    {a : KillAct} (h : killEscalatingStep env grace t k a = some (t', k')) :
    a.opens = k.opening ∧ k'.opening = false := by
  cases killMove_of_step h <;> exact ⟨rfl, rfl⟩

/-! ### Licences -/

/-- What spends a licence: the store of `kill_fired`, or the first call of the kill. -/
def Label.spends [DecidableEq ι] (atKill : Bool) (i : ι) (l : Label ι) : Bool :=
  if atKill then l.opensKill i else l.fires i

/-- The wiring block has decided to kill, unless its probe tells it not to, and has not spent
its licence. -/
def MainPc.licensed (atKill : Bool) : MainPc → Bool
  | .probe _ | .fire => true
  | .kill k => atKill && k.opening
  | _ => false

/-- So has a call of `cancel()` that found run `i` in the slot. -/
def Caller.licensed [DecidableEq ι] (atKill : Bool) (i : ι) : Caller ι → Bool
  | .probe j _ | .fire j => decide (j = i)
  | .kill j k => decide (j = i) && (atKill && k.opening)
  | _ => false

/-- At most one licence to kill is out or spent. -/
structure Licence [DecidableEq ι] (atKill : Bool) (i : ι) (tr : List (Label ι)) (w : World ι) :
    Prop where
  /-- It is spent once. -/
  once : tr.countP (Label.spends atKill i) ≤ 1
  /-- Nobody holds one after that. -/
  spent : 0 < tr.countP (Label.spends atKill i) →
    (w.runs i).main.licensed atKill = false ∧ ∀ k, (w.callers k).licensed atKill i = false
  /-- The run and a caller do not both hold one. -/
  apart : (w.runs i).main.licensed atKill = true → ∀ k, (w.callers k).licensed atKill i = false

/-- What a step may do about licences. -/
inductive LicenceMove [DecidableEq ι] (atKill : Bool) (i : ι) (tr : List (Label ι)) (w : World ι)
    (l : Label ι) (w' : World ι) : Prop
  /-- Nobody gets one. -/
  | keep (label : l.spends atKill i = false)
      (main : (w'.runs i).main.licensed atKill = true → (w.runs i).main.licensed atKill = true)
      (callers : ∀ k, (w'.callers k).licensed atKill i = true →
        (w.callers k).licensed atKill i = true)
  /-- The run takes the only one. -/
  | run (label : l.spends atKill i = false) (unspent : tr.countP (Label.spends atKill i) = 0)
      (callers : ∀ k, (w'.callers k).licensed atKill i = false)
  /-- A caller takes the only one. -/
  | call (label : l.spends atKill i = false) (unspent : tr.countP (Label.spends atKill i) = 0)
      (main : (w'.runs i).main.licensed atKill = false)
  /-- The run spends its licence. -/
  | runSpends (held : (w.runs i).main.licensed atKill = true)
      (main : (w'.runs i).main.licensed atKill = false) (callers : w'.callers = w.callers)
  /-- A caller spends its licence, and no other caller has one. -/
  | callSpends {k} (held : (w.callers k).licensed atKill i = true)
      (main : (w'.runs i).main = (w.runs i).main)
      (callers : ∀ k, (w'.callers k).licensed atKill i = false)

section Moves

variable [DecidableEq ι] {env : Env} {cfg : ι → RunConfig} {atKill : Bool} {i : ι}
  {tr : List (Label ι)} {w w' : World ι} {l : Label ι}

theorem Licence.move (hl : Licence atKill i tr w) (h : LicenceMove atKill i tr w l w') :
    Licence atKill i (tr ++ [l]) w' := by
  have hcount : (tr ++ [l]).countP (Label.spends atKill i) =
      tr.countP (Label.spends atKill i) + if l.spends atKill i then 1 else 0 := by
    simp [List.countP_append, List.countP_singleton]
  cases h with
  | keep label main callers =>
    rw [label] at hcount
    have hmain : (w.runs i).main.licensed atKill = false →
        (w'.runs i).main.licensed atKill = false := fun h => by
      rw [Bool.eq_false_iff] at h ⊢
      exact fun h' => h (main h')
    have hcall : ∀ k, (w.callers k).licensed atKill i = false →
        (w'.callers k).licensed atKill i = false := fun k h => by
      rw [Bool.eq_false_iff] at h ⊢
      exact fun h' => h (callers k h')
    refine ⟨by simpa [hcount] using hl.once, fun hpos => ?_, fun hm k => ?_⟩
    · obtain ⟨h₁, h₂⟩ := hl.spent (by simpa [hcount] using hpos)
      exact ⟨hmain h₁, fun k => hcall k (h₂ k)⟩
    · exact hcall k (hl.apart (main hm) k)
  | run label unspent callers =>
    rw [label, unspent] at hcount
    exact ⟨by simp [hcount], fun hpos => by simp [hcount] at hpos, fun _ => callers⟩
  | call label unspent main =>
    rw [label, unspent] at hcount
    exact ⟨by simp [hcount], fun hpos => by simp [hcount] at hpos, fun hm => by simp [main] at hm⟩
  | runSpends held main callers =>
    -- a licence was out, so none was spent
    have hzero : tr.countP (Label.spends atKill i) = 0 := by
      by_contra hpos
      rw [(hl.spent (Nat.pos_of_ne_zero hpos)).1] at held
      cases held
    refine ⟨by rw [hcount, hzero]; split <;> decide, fun _ => ⟨main, ?_⟩, fun hm => ?_⟩
    · rw [callers]
      exact hl.apart held
    · rw [main] at hm
      cases hm
  | callSpends held main callers =>
    have hrun : (w.runs i).main.licensed atKill = false := by
      rw [Bool.eq_false_iff]
      intro hm
      rw [hl.apart hm _] at held
      cases held
    have hzero : tr.countP (Label.spends atKill i) = 0 := by
      by_contra hpos
      rw [(hl.spent (Nat.pos_of_ne_zero hpos)).2 _] at held
      cases held
    exact ⟨by rw [hcount, hzero]; split <;> decide, fun _ => ⟨main ▸ hrun, callers⟩,
      fun _ => callers⟩

/-! ### Deciding -/

/-- The two do not decide to kill behind each other's back: the wiring block does not find
`kill_fired` unset while a caller holds the mutex, and no caller finds the run in the slot
once the wiring block has decided, or has fired. -/
def Uncrossed (i : ι) (w : World ι) : Label ι → Bool
  | .main j (.loadFired false) => decide (j ≠ i) || !w.handle.locked
  | .cancel _ .lock => decide (w.handle.kill ≠ some i) ||
      (!w.handle.killFired && !(w.runs i).main.licensed false)
  | _ => true

theorem Label.cancelKills_of_opensKill (h : l.opensKill i = true) : l.cancelKills i = true := by
  cases l with
  | main j a =>
    cases a with
    | kill b => exact (Bool.and_eq_true _ _ ▸ h).1
    | _ => cases h
  | cancel k a =>
    cases a with
    | kill j b => exact (Bool.and_eq_true _ _ ▸ h).1
    | _ => cases h
  | _ => cases h

/-- Without a store of `kill_fired` no licence has been spent. -/
theorem SoleRun.unspent (hs : SoleRun cfg i) (h : Reaches env cfg tr w)
    (hf : w.handle.killFired = false) : tr.countP (Label.spends atKill i) = 0 := by
  have hfires : tr.any (Label.fires i) ≠ true := fun hany => by
    rw [(hs.killFired_iff h).mpr hany] at hf
    cases hf
  have hkills : tr.any (Label.cancelKills i) ≠ true := fun hany =>
    hfires ((triggered_of_reaches h i).fired.mpr (.inr hany))
  simp only [ne_eq, List.any_eq_true, not_exists, not_and] at hfires hkills
  refine List.countP_eq_zero.mpr fun l hl hspends => ?_
  cases atKill with
  | false => exact hfires l hl hspends
  | true =>
    exact hkills l hl (Label.cancelKills_of_opensKill hspends)

omit [DecidableEq ι] in
/-- A kill opens with the licence, and goes on without it. -/
theorem MainMove.licensed_kill {c : RunConfig} {hd hd' : CancelHandle ι} {r r' : Run} {b : KillAct}
    (h : MainMove env c i hd r (.kill b) hd' r') :
    r.main.licensed true = b.opens ∧ r.main.licensed false = false ∧
      r'.main.licensed atKill = false := by
  cases h with
  | killMore pc h =>
    obtain ⟨hopens, hclosed⟩ := killEscalatingStep_opens h
    simp [pc, MainPc.licensed, hopens, hclosed]
  | killDone pc h =>
    obtain ⟨hopens, -⟩ := killEscalatingStep_opens h
    simp [pc, MainPc.licensed, hopens]

/-- Apart from the kill, only the load of `kill_fired` leads to a licence. -/
theorem MainEdge.licensed {c : RunConfig} {m m' : MainPc} {a : MainAct} (h : MainEdge env c m a m')
    (hload : a ≠ .loadFired false) (hkill : ∀ b, a ≠ .kill b)
    (hm' : m'.licensed atKill = true) : m.licensed atKill = true := by
  cases h with
  | notFired => exact absurd rfl hload
  | killMore | killDone => exact absurd rfl (hkill _)
  | probeMore | probeAlive | fire => rfl
  | _ => cases hm'

/-- The run thread takes, holds and spends its licence. -/
theorem licenceMove_main {a : MainAct} {hd : CancelHandle ι} {r : Run}
    (h : MainMove env (cfg i) i w.handle (w.runs i) a hd r)
    (hfree : a = .loadFired false → (∀ k, (w.callers k).licensed atKill i = false) ∧
      tr.countP (Label.spends atKill i) = 0) :
    LicenceMove atKill i tr w (.main i a) (World.setRun { w with handle := hd } i r) := by
  have hmain : ((World.setRun { w with handle := hd } i r).runs i).main = r.main := by simp
  by_cases hload : a = .loadFired false
  · obtain ⟨hcallers, hzero⟩ := hfree hload
    subst hload
    exact .run (by cases atKill <;> rfl) hzero hcallers
  by_cases hkill : ∃ b, a = .kill b
  · obtain ⟨b, rfl⟩ := hkill
    obtain ⟨hopens, hbefore, hafter⟩ : (w.runs i).main.licensed true = b.opens ∧
        (w.runs i).main.licensed false = false ∧ r.main.licensed atKill = false := h.licensed_kill
    have hnot : ((World.setRun { w with handle := hd } i r).runs i).main.licensed atKill = false :=
      hmain ▸ hafter
    cases hb : atKill && b.opens with
    | true =>
      obtain ⟨rfl, hb⟩ := (Bool.and_eq_true _ _).mp hb
      exact .runSpends (hopens.trans hb) hnot rfl
    | false =>
      refine .keep ?_ (fun h => by rw [hnot] at h; cases h) fun k => id
      cases atKill with
      | false => rfl
      | true => simpa [Label.spends, Label.opensKill] using hb
  · have hkeep : ((World.setRun { w with handle := hd } i r).runs i).main.licensed atKill = true →
        (w.runs i).main.licensed atKill = true := by
      rw [hmain]
      exact h.edge.licensed hload (by simpa using hkill)
    cases h with
    | fire pc =>
      cases atKill with
      | false => exact .runSpends (by rw [pc]; rfl) (by simp [MainPc.licensed]) rfl
      | true => exact .keep rfl hkeep fun k => id
    | killMore | killDone => exact absurd ⟨_, rfl⟩ hkill
    | _ => exact .keep (by cases atKill <;> rfl) hkeep fun k => id

/-- A caller takes, holds and spends its licence. -/
theorem licenceMove_cancel {k : CallerId ι} {a : CancelAct ι} (hg : Guarded w)
    (h : CancelMove env w k a w')
    (hfree : a = .lock → w.handle.kill = some i →
      (w.runs i).main.licensed atKill = false ∧ tr.countP (Label.spends atKill i) = 0) :
    LicenceMove atKill i tr w (.cancel k a) w' := by
  have hmain := h.main_eq i
  -- only `k` moves, and while it is inside the others are not
  have hkeep : ((w'.callers k).licensed atKill i = true → (w.callers k).licensed atKill i = true) →
      ∀ k', (w'.callers k').licensed atKill i = true → (w.callers k').licensed atKill i = true := by
    intro hk k' hk'
    by_cases heq : k' = k
    · subst heq
      exact hk hk'
    · rwa [h.callers_ne heq] at hk'
  have halone : w.callers k ≠ .idle → (w'.callers k).licensed atKill i = false →
      ∀ k', (w'.callers k').licensed atKill i = false := by
    intro hne hk k'
    by_cases heq : k' = k
    · subst heq
      exact hk
    · have hidle : w.callers k' = .idle := by
        by_contra hne'
        exact heq (hg.sole k' k hne' hne)
      rw [h.callers_ne heq, hidle]
      rfl
  cases h with
  | @lockWired j pc free slot =>
    by_cases hj : j = i
    · subst hj
      obtain ⟨hrun, hzero⟩ := hfree rfl slot
      exact .call (by cases atKill <;> rfl) hzero hrun
    · refine .keep (by cases atKill <;> rfl) (by rw [hmain]; exact id) (hkeep ?_)
      simp [Caller.licensed, hj]
  | @fire j pc =>
    by_cases hj : j = i
    · subst hj
      cases atKill with
      | false =>
        exact .callSpends (k := k) (by simp [pc, Caller.licensed]) hmain
          (halone (by simp [pc]) (by simp [Caller.licensed]))
      | true =>
        exact .keep rfl (by rw [hmain]; exact id) (hkeep fun _ => by simp [pc, Caller.licensed])
    · refine .keep ?_ (by rw [hmain]; exact id) (hkeep ?_)
      · cases atKill <;> simp [Label.spends, Label.opensKill, Label.fires, hj]
      · simp [Caller.licensed, hj]
  | @killMore j _ b _ _ pc hk | @killDone j _ b _ _ pc hk =>
    obtain ⟨hopens, hclosed⟩ := killEscalatingStep_opens hk
    cases hb : decide (j = i) && (atKill && b.opens) with
    | true =>
      simp only [Bool.and_eq_true, decide_eq_true_eq] at hb
      obtain ⟨rfl, rfl, hb⟩ := hb
      exact .callSpends (k := k) (by simp [pc, Caller.licensed, ← hopens, hb]) hmain
        (halone (by simp [pc]) (by simp [Caller.licensed, hclosed]))
    | false =>
      refine .keep ?_ (by rw [hmain]; exact id) (hkeep ?_)
      · cases atKill with
        | false => rfl
        | true => simpa [Label.spends, Label.opensKill] using hb
      · simp [Caller.licensed, hclosed]
  | probeMore pc | probeAlive pc =>
    exact .keep (by cases atKill <;> rfl) (by rw [hmain]; exact id)
      (hkeep (by simp [pc, Caller.licensed]))
  | _ =>
    exact .keep (by cases atKill <;> rfl) (by rw [hmain]; exact id)
      (hkeep (by simp [Caller.licensed]))

omit [DecidableEq ι] in
/-- A load returns the flag it reads. -/
theorem MainMove.loadFired_eq {c : RunConfig} {hd hd' : CancelHandle ι} {r r' : Run} {a : MainAct}
    {b : Bool} (h : MainMove env c i hd r a hd' r') (ha : a = .loadFired b) : hd.killFired = b := by
  cases h with
  | loadFired => exact MainAct.loadFired.inj ha
  | _ => cases ha

omit [DecidableEq ι] in
/-- Outside a kill, a licence lasts to the store as it lasts to the kill. -/
theorem MainPc.licensed_of_not_killing {m : MainPc} (h : m.licensed false = false)
    (hkill : ∀ k, m ≠ .kill k) : m.licensed atKill = false := by
  cases m with
  | kill k => exact absurd rfl (hkill k)
  | _ => exact h

theorem Caller.target_of_licensed {c : Caller ι} (h : c.licensed atKill i = true) :
    c.target = some i := by
  cases c <;> simp_all [Caller.licensed, Caller.target]

/-- On a handle of its own, a step that does not cross is a `LicenceMove`. -/
theorem licenceMove_of_step (hw : Reaches env cfg tr w) (hs : SoleRun cfg i)
    (hstep : step env cfg w l = some w') (hu : Uncrossed i w l = true) :
    LicenceMove atKill i tr w l w' := by
  have hg := guarded_of_reaches hw
  cases handleMove_of_step hstep with
  | @main j a hd r h =>
    by_cases hj : j = i
    · subst hj
      refine licenceMove_main h fun ha => ?_
      subst ha
      refine ⟨fun k => ?_, hs.unspent hw ?_⟩
      · have hfree : w.handle.locked = false := by simpa [Uncrossed] using hu
        rw [Bool.eq_false_iff]
        intro hk
        have := hg.target_of_free hfree k
        rw [Caller.target_of_licensed hk] at this
        cases this
      · exact h.loadFired_eq rfl
    · have hrun : (World.setRun { w with handle := hd } j r).runs i = w.runs i :=
        setRun_runs_ne _ _ (Ne.symm hj)
      refine .keep ?_ (by rw [hrun]; exact id) fun k => id
      cases atKill <;> cases a <;> simp [Label.spends, Label.opensKill, Label.fires, hj]
  | @cancel k a _ h =>
    refine licenceMove_cancel hg h fun ha hslot => ?_
    subst ha
    obtain ⟨hf, hm⟩ : w.handle.killFired = false ∧ (w.runs i).main.licensed false = false := by
      simpa [Uncrossed, hslot] using hu
    refine ⟨MainPc.licensed_of_not_killing hm fun p hp => ?_, hs.unspent hw hf⟩
    have hfires := (triggered_of_reaches hw i).fired.mpr (.inl (.inl ⟨p, hp⟩))
    rw [(hs.killFired_iff hw).mpr hfires] at hf
    cases hf
  | inner hl _ hc hm =>
    refine .keep ?_ (by rw [hm]; exact id) (by rw [hc]; exact fun k => id)
    cases l with
    | main | cancel => cases hl
    | _ => cases atKill <;> rfl

/-- On a handle of its own, in a run that never crosses, at most one licence is out. -/
theorem licence_of_reaches (h : Reaches env cfg tr w) (hs : SoleRun cfg i)
    (hu : Lts.Along (step env cfg) (fun w l => Uncrossed i w l = true) (World.init ι env) tr) :
    Licence atKill i tr w := by
  refine Lts.exec_invariant_along (P := fun tr w => Licence atKill i tr w) ?_ ?_ h hu
  · exact ⟨by simp, fun h => by simp at h, fun _ _ => rfl⟩
  · intro tr w l w' hw hl hu hstep
    exact hl.move (licenceMove_of_step hw hs hstep hu)

/-- **One kill for a cancellation.**  On a handle of its own, in a run in which the wiring
block does not find `kill_fired` unset while a caller holds the mutex, and no caller finds
the run in the slot once the wiring block has decided to kill, `kill_escalating` is called
at most once on behalf of `cancel()`, and opens at most once. -/
theorem cancellation_kills_at_most_once (h : Reaches env cfg tr w) (hs : SoleRun cfg i)
    (hu : Lts.Along (step env cfg) (fun w l => Uncrossed i w l = true) (World.init ι env) tr) :
    tr.countP (Label.fires i) ≤ 1 ∧ tr.countP (Label.opensKill i) ≤ 1 :=
  ⟨(licence_of_reaches h hs hu : Licence false i tr w).once,
    (licence_of_reaches h hs hu : Licence true i tr w).once⟩

end Moves

/-- A caller that comes while the run is wired kills once. -/
theorem cancelledRun_kills_once :
    ∃ w, Reaches Env.posix (fun _ => ⟨none, false, true⟩) cancelledRun w ∧
      (∃ l ∈ cancelledRun, l.opensKill () = true) ∧
      cancelledRun.countP (Label.fires ()) ≤ 1 ∧ cancelledRun.countP (Label.opensKill ()) ≤ 1 := by
  obtain ⟨w, hw, -⟩ : ∃ w, Reaches Env.posix (fun _ => ⟨none, false, true⟩) cancelledRun w ∧
      (w.runs ()).main = .finished (.ret (.error .cancelled)) :=
    Lts.exists_exec_of_any (by decide +kernel)
  exact ⟨w, hw, by decide, cancellation_kills_at_most_once hw (i := ()) (fun j hj => absurd rfl hj)
    (by decide +kernel)⟩

/-- The swap comes before the load of `cancelled` and the lock after the store to the slot:
the wiring block and the caller both decide to kill. -/
def crossedCancel : List (Label Unit) :=
  [.main () (.spawn (.command (.ok 7))), .main () .started, .main () .startedReturns,
    .cancel (.thread 0) (.swap false), .main () .wire, .main () (.loadCancelled true),
    .main () (.loadFired false), .cancel (.thread 0) .lock, .main () (.probe .present),
    .main () .fire, .main () (.kill (.term .present)), .cancel (.thread 0) (.probe () .present),
    .cancel (.thread 0) (.fire ()), .cancel (.thread 0) (.kill () (.term .present))]

/-- The group gets two `SIGTERM`s for one cancellation. -/
theorem crossedCancel_kills_twice :
    ∃ w, Reaches Env.posix (fun _ => ⟨none, false, true⟩) crossedCancel w ∧
      crossedCancel.countP (Label.fires ()) = 2 ∧
      crossedCancel.countP (Label.opensKill ()) = 2 := by
  obtain ⟨w, hw, -⟩ : ∃ w, Reaches Env.posix (fun _ => ⟨none, false, true⟩) crossedCancel w ∧
      (w.runs ()).tree.groupLive = true :=
    Lts.exists_exec_of_any (by decide +kernel)
  exact ⟨w, hw, by decide, by decide⟩

end AerCore
