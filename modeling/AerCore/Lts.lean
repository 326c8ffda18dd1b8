import Mathlib.Algebra.GroupWithZero.Nat
import Mathlib.Data.List.Induction
import Mathlib.Tactic.Common

/-!
# Runs of labelled step functions

A concurrent program is modelled by a partial step function `σ → α → Option σ`
whose labels carry *all* the nondeterminism: which thread moves, and what the
environment answers.  Given the label a step is a computation, so a schedule is
a list of labels, the set of interleavings is the set of all lists, and a
concrete schedule can be evaluated.

Nothing in this module is about a particular program.

## Main definitions

* `exec step s tr` — the state after the labels `tr`, if each was enabled.
* `Along step C s tr` — every step of the run `tr` from `s` is taken in a state
  and with a label that `C` accepts.
* `Leads step ok s P` — labels that `ok` accepts can lead from `s` to a state of `P`.
* `Interleaves l₁ l₂ l` — `l` is a shuffle of `l₁` and `l₂`.

## Main results

* `exec_invariant` — **the invariant rule**: a predicate of the labels so far and
  the current state that holds at the start and is kept by each step holds at
  the end of every run.
* `exists_exec_of_any` — a concrete run is checked by evaluating it.
* `exec_invariant_along` — the same, for the runs whose steps all meet a condition.
* `exec_bad_iff` — which runs end in a set of states that no step leads out of.
* `leads_of_measure` — **the progress rule**: if every state short of `P` has a step that
  lowers a measure, `P` can be reached.
* `not_leads_of_invariant` — a set that no accepted label leaves is not left.
* `exec_simulation` — **the simulation rule**: if each step is matched by a run of another
  system, so is a whole run.
* `exec_amortised` — **the potential rule**: what the steps of a run cost is covered by what
  they are credited and by the potential it starts with.
* `exec_product_iff` — **the product rule**: a run of components that share nothing is a
  shuffle of runs of theirs.
* `exec_of_mem` — a run splits around each of its labels.
* `exec_of_sublist_pair` — if one label precedes another in a run, the run splits
  around them.
-/

namespace Lts

variable {σ α : Type*}

/-! ### Runs -/

/-- The state reached from `s` by the labels `tr`, or `none` if one of them is
not enabled where it is reached. -/
def exec (step : σ → α → Option σ) : σ → List α → Option σ
  | s, [] => some s
  | s, a :: tr => (step s a).bind fun s' => exec step s' tr

variable {step : σ → α → Option σ}

@[simp] theorem exec_nil (s : σ) : exec step s [] = some s := rfl

@[simp] theorem exec_cons (s : σ) (a : α) (tr : List α) :
    exec step s (a :: tr) = (step s a).bind fun s' => exec step s' tr := rfl

theorem exec_of_step {s m s' : σ} {a : α} {tr : List α} (h : step s a = some m)
    (hm : exec step m tr = some s') : exec step s (a :: tr) = some s' := by
  rw [exec_cons, h]
  exact hm

/-- A run of a concatenation is a run of the first part and a run of the second
from where the first one ended. -/
theorem exec_append_eq_some {s s' : σ} {t u : List α} :
    exec step s (t ++ u) = some s' ↔
      ∃ m, exec step s t = some m ∧ exec step m u = some s' := by
  induction t generalizing s with
  | nil => simp
  | cons a t ih =>
    simp only [List.cons_append, exec_cons, Option.bind_eq_some_iff, ih]
    constructor
    · rintro ⟨n, hn, m, hm, hu⟩
      exact ⟨m, ⟨n, hn, hm⟩, hu⟩
    · rintro ⟨m, ⟨n, hn, hm⟩, hu⟩
      exact ⟨n, hn, m, hm, hu⟩

/-- The last step of a run. -/
theorem exec_concat_eq_some {s s' : σ} {tr : List α} {a : α} :
    exec step s (tr ++ [a]) = some s' ↔
      ∃ m, exec step s tr = some m ∧ step m a = some s' := by
  simp [exec_append_eq_some]

/-- A concrete run is checked by evaluating it. -/
theorem exists_exec_of_any {P : σ → Prop} [DecidablePred P] {s : σ} {tr : List α}
    (h : (exec step s tr).any (fun s' => decide (P s')) = true) :
    ∃ s', exec step s tr = some s' ∧ P s' := by
  obtain ⟨s', hs', hP⟩ := Option.any_eq_true _ _ |>.mp h
  exact ⟨s', hs', of_decide_eq_true hP⟩

/-- **The invariant rule.**  `P` may speak about the labels of the run so far, so
a history needs no place of its own in the state. -/
theorem exec_invariant {P : List α → σ → Prop} {s₀ : σ} (init : P [] s₀)
    (next : ∀ tr s a s', exec step s₀ tr = some s → P tr s → step s a = some s' →
      P (tr ++ [a]) s')
    {tr : List α} {s : σ} (h : exec step s₀ tr = some s) : P tr s := by
  induction tr using List.reverseRecOn generalizing s with
  | nil =>
    obtain rfl : s₀ = s := by simpa using h
    exact init
  | append_singleton tr a ih =>
    obtain ⟨m, hm, hstep⟩ := exec_concat_eq_some.mp h
    exact next tr m a s hm (ih hm) hstep

/-! ### Conditions on every step of a run -/

/-- Every step of the run `tr` from `s` is taken in a state and with a label
that `C` accepts. -/
def Along (step : σ → α → Option σ) (C : σ → α → Prop) : σ → List α → Prop
  | _, [] => True
  | s, a :: tr => C s a ∧ ∀ s', step s a = some s' → Along step C s' tr

/-- A condition is weakened step by step. -/
theorem Along.imp {C C' : σ → α → Prop} (himp : ∀ s a, C s a → C' s a) {s : σ} {tr : List α}
    (h : Along step C s tr) : Along step C' s tr := by
  induction tr generalizing s with
  | nil => trivial
  | cons a tr ih => exact ⟨himp s a h.1, fun s' hs' => ih (h.2 s' hs')⟩

/-- Two conditions hold along a run when each of them does. -/
theorem Along.and {C C' : σ → α → Prop} {s : σ} {tr : List α} (h : Along step C s tr)
    (h' : Along step C' s tr) : Along step (fun s a => C s a ∧ C' s a) s tr := by
  induction tr generalizing s with
  | nil => trivial
  | cons a tr ih => exact ⟨⟨h.1, h'.1⟩, fun s' hs' => ih (h.2 s' hs') (h'.2 s' hs')⟩

/-- A condition on a concrete run is checked by evaluating it. -/
instance decidableAlong {C : σ → α → Prop} [∀ s a, Decidable (C s a)] :
    (s : σ) → (tr : List α) → Decidable (Along step C s tr)
  | _, [] => isTrue trivial
  | s, a :: tr =>
      match h : step s a with
      | none => decidable_of_iff (C s a) (by simp [Along, h])
      | some s' =>
          have := decidableAlong (C := C) s' tr
          decidable_of_iff (C s a ∧ Along step C s' tr) (by simp [Along, h])

theorem along_append {C : σ → α → Prop} {s m : σ} {t u : List α}
    (ht : exec step s t = some m) :
    Along step C s (t ++ u) ↔ Along step C s t ∧ Along step C m u := by
  induction t generalizing s with
  | nil =>
    obtain rfl : s = m := by simpa using ht
    simp [Along]
  | cons a t ih =>
    obtain ⟨n, hn, hm⟩ := Option.bind_eq_some_iff.mp ht
    simp only [List.cons_append, Along, hn, Option.some.injEq, forall_eq', ih hm, and_assoc]

/-- A condition along a run is one on each of its steps. -/
theorem along_of_forall {C : σ → α → Prop} {s : σ} {tr : List α}
    (h : ∀ pre a post m, tr = pre ++ a :: post → exec step s pre = some m → C m a) :
    Along step C s tr := by
  induction tr generalizing s with
  | nil => trivial
  | cons a tr ih =>
    refine ⟨h [] a tr s rfl rfl, fun s' hs' => ih fun pre b post m htr hm => ?_⟩
    refine h (a :: pre) b post m (by rw [htr, List.cons_append]) ?_
    rw [exec_cons, hs']
    exact hm

/-- A condition on the labels alone holds along every run of such labels. -/
theorem along_of_forall_mem {C : σ → α → Prop} {s : σ} {tr : List α} (h : ∀ a ∈ tr, ∀ m, C m a) :
    Along step C s tr :=
  along_of_forall fun _ a _ m htr _ => h a (by simp [htr]) m

/-- The invariant rule for the runs whose steps all meet `C`. -/
theorem exec_invariant_along {C : σ → α → Prop} {P : List α → σ → Prop} {s₀ : σ}
    (init : P [] s₀)
    (next : ∀ tr s a s', exec step s₀ tr = some s → P tr s → C s a → step s a = some s' →
      P (tr ++ [a]) s')
    {tr : List α} {s : σ} (h : exec step s₀ tr = some s) (hC : Along step C s₀ tr) : P tr s := by
  have key : Along step C s₀ tr → P tr s := by
    refine exec_invariant (P := fun tr s => Along step C s₀ tr → P tr s) (fun _ => init) ?_ h
    intro tr s a s' hs ih hstep hC
    obtain ⟨htr, hlast⟩ := (along_append hs).mp hC
    exact next tr s a s' hs (ih htr) hlast.1 hstep
  exact key hC

/-- **What cannot be mended.**  If a step leads into `B` exactly from `B` or when it does not
meet `C`, a run ends in `B` exactly if it starts there or not all of its steps meet `C`. -/
theorem exec_bad_iff {I B : σ → Prop} {C : σ → α → Prop}
    (next : ∀ s a s', I s → step s a = some s' → I s' ∧ (B s' ↔ B s ∨ ¬C s a))
    {s s' : σ} {tr : List α} (hI : I s) (h : exec step s tr = some s') :
    B s' ↔ B s ∨ ¬Along step C s tr := by
  induction tr generalizing s with
  | nil =>
    obtain rfl : s = s' := by simpa using h
    simp [Along]
  | cons a tr ih =>
    obtain ⟨m, hm, h⟩ := Option.bind_eq_some_iff.mp h
    obtain ⟨hI', hbad⟩ := next s a m hI hm
    have hall : Along step C s (a :: tr) ↔ C s a ∧ Along step C m tr := by
      simp only [Along, hm, Option.some.injEq, forall_eq']
    rw [ih hI' h, hbad, hall, not_and_or, or_assoc]

/-! ### Simulation -/

/-- **The simulation rule.**  If from related states each step that meets `C` is matched by a
run of the other system, with labels that `f` tells and steps that meet `C'`, then a whole run
is matched. -/
theorem exec_simulation {τ β : Type*} (step' : τ → β → Option τ) {C : σ → α → Prop}
    (C' : τ → β → Prop) (R : σ → τ → Prop) (f : α → List β)
    (sim : ∀ s a s' t, R s t → C s a → step s a = some s' →
      ∃ t', exec step' t (f a) = some t' ∧ Along step' C' t (f a) ∧ R s' t')
    {s s' : σ} {t : τ} {tr : List α} (hR : R s t) (h : exec step s tr = some s')
    (hC : Along step C s tr) :
    ∃ t', exec step' t (tr.flatMap f) = some t' ∧ Along step' C' t (tr.flatMap f) ∧ R s' t' := by
  induction tr generalizing s t with
  | nil =>
    obtain rfl : s = s' := by simpa using h
    exact ⟨t, rfl, trivial, hR⟩
  | cons a tr ih =>
    obtain ⟨m, hm, h⟩ := Option.bind_eq_some_iff.mp h
    obtain ⟨n, hn, halong, hmn⟩ := sim s a m t hR hC.1 hm
    obtain ⟨t', ht', halong', hR'⟩ := ih hmn h (hC.2 m hm)
    rw [List.flatMap_cons]
    exact ⟨t', exec_append_eq_some.mpr ⟨n, hn, ht'⟩, (along_append hn).mpr ⟨halong, halong'⟩, hR'⟩

/-! ### Amortised cost -/

/-- **The potential rule.**  If what a step costs and leaves of the potential is covered by its
credit and by the potential before it, so it is for a whole run. -/
theorem exec_amortised (Φ : σ → ℕ) (cost credit : α → ℕ) {s₀ : σ}
    (next : ∀ tr s a s', exec step s₀ tr = some s → step s a = some s' →
      Φ s' + cost a ≤ Φ s + credit a)
    {tr : List α} {s : σ} (h : exec step s₀ tr = some s) :
    Φ s + (tr.map cost).sum ≤ Φ s₀ + (tr.map credit).sum := by
  refine exec_invariant (P := fun tr s => Φ s + (tr.map cost).sum ≤ Φ s₀ + (tr.map credit).sum)
    (by simp) ?_ h
  intro tr s a s' hs ih hstep
  have hpay := next tr s a s' hs hstep
  simp only [List.map_append, List.sum_append, List.map_cons, List.map_nil, List.sum_cons,
    List.sum_nil]
  omega

/-! ### Products -/

section Product

variable {ι : Type*} [DecidableEq ι]

/-- Components side by side; a label names the one that moves. -/
def product (step : ι → σ → α → Option σ) (s : ι → σ) (l : ι × α) : Option (ι → σ) :=
  (step l.1 (s l.1) l.2).map (Function.update s l.1)

/-- What one component does in a run. -/
def component (i : ι) (tr : List (ι × α)) : List α :=
  tr.filterMap fun l => if l.1 = i then some l.2 else none

@[simp] theorem component_nil (i : ι) : component i ([] : List (ι × α)) = [] := rfl

theorem component_cons_self (i : ι) (a : α) (tr : List (ι × α)) :
    component i ((i, a) :: tr) = a :: component i tr := by
  simp [component]

theorem component_cons_ne {i j : ι} (h : j ≠ i) (a : α) (tr : List (ι × α)) :
    component i ((j, a) :: tr) = component i tr := by
  simp [component, h]

/-- **The product rule.**  A run of the product is a run of each component, and the components
may be shuffled in any way. -/
theorem exec_product_iff {step : ι → σ → α → Option σ} {s s' : ι → σ} {tr : List (ι × α)} :
    exec (product step) s tr = some s' ↔
      ∀ i, exec (step i) (s i) (component i tr) = some (s' i) := by
  induction tr generalizing s with
  | nil => simp [funext_iff]
  | cons l tr ih =>
    obtain ⟨j, a⟩ := l
    rw [exec_cons]
    constructor
    · intro h i
      obtain ⟨m, hm, h⟩ := Option.bind_eq_some_iff.mp h
      obtain ⟨t, ht, rfl⟩ := Option.map_eq_some_iff.mp hm
      have hi := ih.mp h i
      by_cases hj : j = i
      · subst hj
        rw [Function.update_self] at hi
        rw [component_cons_self]
        exact exec_of_step ht hi
      · rw [Function.update_of_ne (Ne.symm hj)] at hi
        rw [component_cons_ne hj]
        exact hi
    · intro h
      have hj := h j
      rw [component_cons_self] at hj
      obtain ⟨t, ht, hrest⟩ := Option.bind_eq_some_iff.mp hj
      refine Option.bind_eq_some_iff.mpr ⟨Function.update s j t, by simp [product, ht], ?_⟩
      refine ih.mpr fun i => ?_
      by_cases hi : i = j
      · subst hi
        rw [Function.update_self]
        exact hrest
      · rw [Function.update_of_ne hi, ← component_cons_ne (Ne.symm hi) a]
        exact h i

end Product

/-! ### What can be reached -/

/-- From `s`, labels that `ok` accepts can lead to a state of `P`. -/
def Leads (step : σ → α → Option σ) (ok : α → Prop) (s : σ) (P : σ → Prop) : Prop :=
  ∃ tr s', (∀ a ∈ tr, ok a) ∧ exec step s tr = some s' ∧ P s'

section Leads

variable {ok ok' : α → Prop} {P Q : σ → Prop} {s s' : σ} {a : α}

theorem Leads.here (h : P s) : Leads step ok s P :=
  ⟨[], s, by simp, rfl, h⟩

theorem Leads.cons (hok : ok a) (hs : step s a = some s') (h : Leads step ok s' P) :
    Leads step ok s P := by
  obtain ⟨tr, s₁, htr, hexec, hP⟩ := h
  refine ⟨a :: tr, s₁, ?_, ?_, hP⟩
  · simpa [hok] using htr
  · rw [exec_cons, hs]
    exact hexec

theorem Leads.bind (h : Leads step ok s P) (next : ∀ s', P s' → Leads step ok s' Q) :
    Leads step ok s Q := by
  obtain ⟨tr, s₁, htr, hexec, hP⟩ := h
  obtain ⟨tr', s₂, htr', hexec', hQ⟩ := next s₁ hP
  refine ⟨tr ++ tr', s₂, fun a ha => ?_, exec_append_eq_some.mpr ⟨s₁, hexec, hexec'⟩, hQ⟩
  exact (List.mem_append.mp ha).elim (htr a) (htr' a)

theorem Leads.imp (hok : ∀ a, ok a → ok' a) (hP : ∀ s, P s → Q s) (h : Leads step ok s P) :
    Leads step ok' s Q := by
  obtain ⟨tr, s₁, htr, hexec, hs₁⟩ := h
  exact ⟨tr, s₁, fun a ha => hok a (htr a ha), hexec, hP s₁ hs₁⟩

/-- **The progress rule.**  If every state of `I` short of `P` has a step that stays in `I`
and lowers the measure, `P` can be reached. -/
theorem leads_of_measure (μ : σ → ℕ) {I : σ → Prop}
    (next : ∀ s, I s → P s ∨ ∃ a s', ok a ∧ step s a = some s' ∧ I s' ∧ μ s' < μ s) (h : I s) :
    Leads step ok s P := by
  induction hn : μ s using Nat.strongRecOn generalizing s with
  | _ n ih =>
    rcases next s h with hP | ⟨a, s', hok, hs, hI, hlt⟩
    · exact .here hP
    · exact .cons hok hs (ih (μ s') (hn ▸ hlt) hI rfl)

/-- What no accepted label leaves is not left. -/
theorem not_leads_of_invariant {I : σ → Prop}
    (next : ∀ s a s', I s → ok a → step s a = some s' → I s') (hP : ∀ s, I s → ¬P s) (h : I s) :
    ¬Leads step ok s P := by
  rintro ⟨tr, s₁, htr, hexec, hs₁⟩
  refine hP s₁ ?_ hs₁
  clear hs₁
  induction tr generalizing s with
  | nil =>
    obtain rfl : s = s₁ := by simpa using hexec
    exact h
  | cons a tr ih =>
    obtain ⟨m, hm, hexec⟩ := Option.bind_eq_some_iff.mp hexec
    exact ih (next s a m h (htr a (by simp)) hm) (fun b hb => htr b (by simp [hb])) hexec

end Leads

/-! ### The order of labels in a run -/

/-- A run splits around each of its labels. -/
theorem exec_of_mem {s s' : σ} {tr : List α} {a : α} (h : exec step s tr = some s')
    (ha : a ∈ tr) :
    ∃ l₁ l₂ s₁ s₂, tr = l₁ ++ a :: l₂ ∧ exec step s l₁ = some s₁ ∧ step s₁ a = some s₂ ∧
      exec step s₂ l₂ = some s' := by
  obtain ⟨l₁, l₂, rfl⟩ := List.append_of_mem ha
  obtain ⟨s₁, h₁, h⟩ := exec_append_eq_some.mp h
  obtain ⟨s₂, h₂, h⟩ := Option.bind_eq_some_iff.mp h
  exact ⟨l₁, l₂, s₁, s₂, rfl, h₁, h₂, h⟩

/-- If `a` precedes `b` among the labels of a run, the run splits around them. -/
theorem exec_of_sublist_pair {s s' : σ} {tr : List α} {a b : α}
    (h : exec step s tr = some s') (hab : [a, b].Sublist tr) :
    ∃ l₁ l₂ l₃ s₁ s₂ s₃ s₄, tr = l₁ ++ a :: (l₂ ++ b :: l₃) ∧
      exec step s l₁ = some s₁ ∧ step s₁ a = some s₂ ∧ exec step s₂ l₂ = some s₃ ∧
      step s₃ b = some s₄ ∧ exec step s₄ l₃ = some s' := by
  obtain ⟨r₁, r₂, rfl, ha, hb⟩ := List.cons_sublist_iff.mp hab
  obtain ⟨m, h₁, h₂⟩ := exec_append_eq_some.mp h
  obtain ⟨l₁, l₂, s₁, s₂, rfl, hl₁, hs₂, hl₂⟩ := exec_of_mem h₁ ha
  obtain ⟨l₃, l₄, s₃, s₄, rfl, hl₃, hs₄, hl₄⟩ :=
    exec_of_mem h₂ (List.singleton_sublist.mp hb)
  refine ⟨l₁, l₂ ++ l₃, l₄, s₁, s₂, s₃, s₄, by simp, hl₁, hs₂, ?_, hs₄, hl₄⟩
  exact exec_append_eq_some.mpr ⟨m, hl₂, hl₃⟩

/-- A label of a run that is made up label by label comes from one label, and what comes from
those before it stands before it. -/
theorem of_flatMap_eq_append_cons {β : Type*} {f : α → List β} {tr : List α} {pre post : List β}
    {b : β} (h : tr.flatMap f = pre ++ b :: post) :
    ∃ l₁ a l₂, tr = l₁ ++ a :: l₂ ∧ b ∈ f a ∧ ∀ x ∈ l₁.flatMap f, x ∈ pre := by
  induction tr generalizing pre with
  | nil => simp at h
  | cons a tr ih =>
    rw [List.flatMap_cons] at h
    rcases List.append_eq_append_iff.mp h with ⟨as, rfl, htr⟩ | ⟨bs, hfa, htr⟩
    · obtain ⟨l₁, c, l₂, rfl, hb, hpre⟩ := ih htr
      refine ⟨a :: l₁, c, l₂, rfl, hb, fun x hx => ?_⟩
      rw [List.flatMap_cons, List.mem_append] at hx
      exact List.mem_append.mpr (hx.imp id (hpre x))
    · cases bs with
      | nil =>
        have htr : tr.flatMap f = [] ++ b :: post := htr.symm
        obtain ⟨l₁, c, l₂, rfl, hb, hpre⟩ := ih htr
        refine ⟨a :: l₁, c, l₂, rfl, hb, fun x hx => ?_⟩
        rw [List.flatMap_cons, List.mem_append, hfa, List.append_nil] at hx
        exact hx.resolve_right fun hx => by cases hpre x hx
      | cons c bs =>
        obtain ⟨rfl, -⟩ := List.cons.inj htr
        exact ⟨[], a, tr, rfl, by simp [hfa], by simp⟩

/-! ### Interleavings of two lists -/

/-- `l` is a shuffle of `l₁` and `l₂`: their elements, each list in its order. -/
inductive Interleaves : List α → List α → List α → Prop
  /-- Nothing is a shuffle of nothing. -/
  | nil : Interleaves [] [] []
  /-- The next element comes from the left list. -/
  | left {a : α} {l₁ l₂ l : List α} : Interleaves l₁ l₂ l → Interleaves (a :: l₁) l₂ (a :: l)
  /-- The next element comes from the right list. -/
  | right {a : α} {l₁ l₂ l : List α} : Interleaves l₁ l₂ l → Interleaves l₁ (a :: l₂) (a :: l)

end Lts
