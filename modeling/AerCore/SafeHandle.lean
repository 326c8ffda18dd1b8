import Mathlib.Data.Finset.Card
import Mathlib.Tactic.Common

/-!
# Reference-counted handles

A handle owns a resource outside the program.  It counts references: one of its
owner, given up by `dispose`, and one of each call that uses the resource.  The
last reference to go frees the resource, and from then on the handle is closed:
no call gets a reference any more.

The counter is compared with what it counts, the set of the calls in progress.
Nothing in this module is about a particular program.

## Main definitions

* `SafeHandle`, `SafeHandle.addRef`, `SafeHandle.release`, `SafeHandle.dispose`.
* `SafeHandle.Held h H` — the calls in `H`, and no others, hold references.

## Main results

* `Held.addRef`, `Held.release`, `Held.dispose` — what the operations do to the set.
* `Held.frees_eq_one_iff` — the resource is freed exactly when the handle is disposed
  of and no call is in progress; `Held.frees_le_one` — and never again.
* `Held.addRef_eq_none_iff` — a call is refused in the same states.
-/

/-- A handle on a resource. -/
structure SafeHandle where
  /-- How many references there are. -/
  refs : ℕ
  /-- The owner has given up its reference. -/
  disposed : Bool
  /-- How often the resource has been freed. -/
  frees : ℕ
  deriving DecidableEq, Repr

namespace SafeHandle

variable {η : Type*} {h h' : SafeHandle} {H : Finset η} {x : η}

/-- A handle on a resource that has just been made. -/
def new : SafeHandle := ⟨1, false, 0⟩

/-- A reference for a call, or nothing if the handle is closed. -/
def addRef (h : SafeHandle) : Option SafeHandle :=
  if h.refs = 0 then none else some { h with refs := h.refs + 1 }

/-- A reference goes; the last one frees the resource. -/
def release (h : SafeHandle) : SafeHandle :=
  { h with
    refs := h.refs - 1
    frees := if h.refs = 1 then h.frees + 1 else h.frees }

/-- The owner's reference goes, unless it is gone already. -/
def dispose (h : SafeHandle) : SafeHandle :=
  if h.disposed then h else { h.release with disposed := true }

@[simp] theorem disposed_dispose (h : SafeHandle) : h.dispose.disposed = true := by
  unfold dispose
  split
  · assumption
  · rfl

theorem disposed_addRef (ha : h.addRef = some h') : h'.disposed = h.disposed := by
  unfold addRef at ha
  split at ha
  · cases ha
  · obtain rfl := Option.some.inj ha
    rfl

/-- The references are those of the calls in `H` and, until it is disposed of, the owner's;
the resource has been freed once if there are none, and else not at all. -/
structure Held (h : SafeHandle) (H : Finset η) : Prop where
  /-- The counter counts. -/
  refs : h.refs = H.card + if h.disposed then 0 else 1
  /-- The resource is freed with the last reference. -/
  frees : h.frees = if h.refs = 0 then 1 else 0

theorem held_new : Held new (∅ : Finset η) := ⟨rfl, rfl⟩

/-- A call takes a reference. -/
theorem Held.addRef [DecidableEq η] (hh : Held h H) (hx : x ∉ H) (ha : h.addRef = some h') :
    Held h' (insert x H) := by
  unfold SafeHandle.addRef at ha
  split at ha
  · cases ha
  · next hne =>
    obtain rfl := Option.some.inj ha
    refine ⟨?_, ?_⟩
    · show h.refs + 1 = (insert x H).card + if h.disposed then 0 else 1
      rw [Finset.card_insert_of_notMem hx, hh.refs]
      omega
    · show h.frees = if h.refs + 1 = 0 then 1 else 0
      rw [hh.frees, if_neg hne, if_neg (Nat.succ_ne_zero _)]

/-- Freeing with the last reference keeps the two counters together. -/
theorem frees_release (hf : h.frees = if h.refs = 0 then 1 else 0) (hpos : 0 < h.refs) :
    h.release.frees = if h.release.refs = 0 then 1 else 0 := by
  show (if h.refs = 1 then h.frees + 1 else h.frees) = if h.refs - 1 = 0 then 1 else 0
  rw [hf, if_neg (Nat.pos_iff_ne_zero.mp hpos)]
  by_cases hone : h.refs = 1
  · rw [if_pos hone, if_pos (by omega)]
  · rw [if_neg hone, if_neg (by omega)]

/-- A call that holds a reference gives it back. -/
theorem Held.release [DecidableEq η] (hh : Held h H) (hx : x ∈ H) : Held h.release (H.erase x) := by
  have hcard : 0 < H.card := Finset.card_pos.mpr ⟨x, hx⟩
  have hrefs := hh.refs
  refine ⟨?_, frees_release hh.frees (by omega)⟩
  show h.refs - 1 = (H.erase x).card + if h.disposed then 0 else 1
  rw [Finset.card_erase_of_mem hx, hrefs]
  omega

/-- The owner disposes of the handle, once or again. -/
theorem Held.dispose (hh : Held h H) : Held h.dispose H := by
  unfold SafeHandle.dispose
  split
  · exact hh
  · next hdis =>
    have hrefs := hh.refs
    rw [if_neg hdis] at hrefs
    refine ⟨?_, frees_release hh.frees (by omega)⟩
    show h.refs - 1 = H.card + 0
    omega

/-- Nothing is left of a handle exactly when its owner and all calls are through with it. -/
theorem Held.refs_eq_zero_iff (hh : Held h H) : h.refs = 0 ↔ h.disposed = true ∧ H = ∅ := by
  rw [hh.refs, Nat.add_eq_zero_iff, Finset.card_eq_zero, and_comm]
  cases h.disposed <;> simp

/-- **A resource is freed exactly when the handle is disposed of and out of use.** -/
theorem Held.frees_eq_one_iff (hh : Held h H) : h.frees = 1 ↔ h.disposed = true ∧ H = ∅ := by
  rw [← hh.refs_eq_zero_iff, hh.frees]
  split <;> simp_all

/-- **A resource is freed at most once.** -/
theorem Held.frees_le_one (hh : Held h H) : h.frees ≤ 1 := by
  rw [hh.frees]
  split <;> omega

/-- A resource is not freed while a call uses it. -/
theorem Held.frees_eq_zero (hh : Held h H) (hx : x ∈ H) : h.frees = 0 := by
  rw [hh.frees, if_neg]
  intro hz
  rw [(hh.refs_eq_zero_iff.mp hz).2] at hx
  exact absurd hx (Finset.notMem_empty x)

/-- A call is refused exactly when the resource is gone. -/
theorem Held.addRef_eq_none_iff (hh : Held h H) :
    h.addRef = none ↔ h.disposed = true ∧ H = ∅ := by
  rw [← hh.refs_eq_zero_iff, SafeHandle.addRef]
  split <;> simp_all

end SafeHandle
