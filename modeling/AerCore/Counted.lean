import Mathlib.Data.Finset.Card

/-!
# Counted references

A resource that is released when the last reference to it is dropped.  Each reference
is kept by the name of its owner, a variable of the program that uses the resource, so
the count is the number of owners.

The discipline is that of an owned, clonable reference: the first one is made with the
resource, a further one is cloned from an owner, and an owner may move its reference on
or drop it.  Dropping or moving a variable that has been moved out of does nothing.

## Main definitions

* `Counted` — the owners of a resource, and how often it has been released.
* `CountedOp`, `Counted.apply`, `Counted.run` — the operations.
* `Counted.Fresh`, `Counted.Open`, `Counted.Closed` — not made yet, owned, released.

## Main results

* `Counted.mem_apply_clone`, `mem_apply_move`, `mem_apply_drop` — who owns a reference
  after an operation.
* `Counted.open_or_closed_run` — **the resource is released once, by the drop of the
  last reference**, as long as clones are made from owners.
-/

/-- A counted resource. -/
structure Counted (ω : Type*) where
  /-- Who owns a reference; their number is the count. -/
  owners : Finset ω
  /-- How often the resource has been released. -/
  releases : ℕ
  deriving DecidableEq

/-- What a program does with references. -/
inductive CountedOp (ω : Type*)
  /-- The resource is made, and its first reference is stored. -/
  | make (dst : ω)
  /-- A reference is cloned. -/
  | clone (src dst : ω)
  /-- A reference is moved. -/
  | move (src dst : ω)
  /-- A reference is dropped, unless it has been moved away. -/
  | drop (src : ω)
  deriving DecidableEq

namespace Counted

variable {ω : Type*}

/-- The resource has not been made. -/
def fresh : Counted ω := ⟨∅, 0⟩

/-- The resource is owned and has never been released. -/
def Open (c : Counted ω) : Prop := c.owners.Nonempty ∧ c.releases = 0

/-- Nobody owns the resource and it has been released once. -/
def Closed (c : Counted ω) : Prop := c.owners = ∅ ∧ c.releases = 1

section Operations

variable [DecidableEq ω]

/-- One operation. -/
def apply (c : Counted ω) : CountedOp ω → Counted ω
  | .make dst | .clone _ dst => { c with owners := insert dst c.owners }
  | .move src dst =>
      if src ∈ c.owners then { c with owners := insert dst (c.owners.erase src) } else c
  | .drop src =>
      if src ∈ c.owners then
        -- the drop that brings the count to zero releases the resource
        ⟨c.owners.erase src,
          if c.owners.erase src = ∅ then c.releases + 1 else c.releases⟩
      else c

/-- A sequence of operations. -/
def run (c : Counted ω) (ops : List (CountedOp ω)) : Counted ω := ops.foldl apply c

@[simp] theorem run_nil (c : Counted ω) : c.run [] = c := rfl

@[simp] theorem run_cons (c : Counted ω) (op : CountedOp ω) (ops : List (CountedOp ω)) :
    c.run (op :: ops) = (c.apply op).run ops := rfl

theorem run_append (c : Counted ω) (ops ops' : List (CountedOp ω)) :
    c.run (ops ++ ops') = (c.run ops).run ops' :=
  List.foldl_append

variable {c : Counted ω} {o src dst : ω}

@[simp] theorem mem_apply_make : o ∈ (c.apply (.make dst)).owners ↔ o = dst ∨ o ∈ c.owners :=
  Finset.mem_insert

@[simp] theorem mem_apply_clone :
    o ∈ (c.apply (.clone src dst)).owners ↔ o = dst ∨ o ∈ c.owners :=
  Finset.mem_insert

@[simp] theorem mem_apply_move :
    o ∈ (c.apply (.move src dst)).owners ↔
      (o = dst ∧ src ∈ c.owners) ∨ (o ≠ src ∧ o ∈ c.owners) := by
  simp only [apply]
  split
  · next h => simp [h]
  · next h =>
    have hne : o ∈ c.owners → o ≠ src := fun ho he => h (he ▸ ho)
    simp only [h, and_false, false_or]
    exact ⟨fun ho => ⟨hne ho, ho⟩, fun ho => ho.2⟩

@[simp] theorem mem_apply_drop :
    o ∈ (c.apply (.drop src)).owners ↔ o ≠ src ∧ o ∈ c.owners := by
  simp only [apply]
  split
  · exact Finset.mem_erase
  · next h => exact ⟨fun ho => ⟨fun he => h (he ▸ ho), ho⟩, fun ho => ho.2⟩

/-! ### Released once -/

/-- What an operation needs: a resource is made once, and a clone has an owner to be
made from. -/
def Allowed (c : Counted ω) : CountedOp ω → Prop
  | .make _ => c = fresh
  | .clone src _ => src ∈ c.owners
  | .move _ _ | .drop _ => True

/-- A sequence of operations, each of which has what it needs. -/
def AllAllowed : Counted ω → List (CountedOp ω) → Prop
  | _, [] => True
  | c, op :: ops => c.Allowed op ∧ AllAllowed (c.apply op) ops

theorem allAllowed_append {ops ops' : List (CountedOp ω)} :
    c.AllAllowed (ops ++ ops') ↔ c.AllAllowed ops ∧ (c.run ops).AllAllowed ops' := by
  induction ops generalizing c with
  | nil => simp [AllAllowed]
  | cons op ops ih => simp [AllAllowed, ih, and_assoc]

theorem open_of_make (h : c.Allowed (.make dst)) : (c.apply (.make dst)).Open := by
  obtain rfl : c = fresh := h
  exact ⟨Finset.insert_nonempty _ _, rfl⟩

/-- An open resource stays open, or its last reference was dropped. -/
theorem Open.apply {op : CountedOp ω} (hc : c.Open) (h : c.Allowed op) :
    (c.apply op).Open ∨ (c.apply op).Closed := by
  obtain ⟨hne, hrel⟩ := hc
  cases op with
  | make => simp [show c = fresh from h, fresh] at hne
  | clone src dst => exact .inl ⟨Finset.insert_nonempty _ _, hrel⟩
  | move src dst =>
    simp only [Counted.apply]
    split
    · exact .inl ⟨Finset.insert_nonempty _ _, hrel⟩
    · exact .inl ⟨hne, hrel⟩
  | drop src =>
    simp only [Counted.apply]
    split
    · by_cases hlast : c.owners.erase src = ∅
      · exact .inr ⟨hlast, by simp [hlast, hrel]⟩
      · exact .inl ⟨Finset.nonempty_iff_ne_empty.mpr hlast, by simp [hlast, hrel]⟩
    · exact .inl ⟨hne, hrel⟩

/-- A closed resource is beyond reach. -/
theorem Closed.apply {op : CountedOp ω} (hc : c.Closed) (h : c.Allowed op) :
    c.apply op = c := by
  obtain ⟨hown, hrel⟩ := hc
  cases op with
  | make => simp [show c = fresh from h, fresh] at hrel
  | clone src dst => simp [Allowed, hown] at h
  | move src dst | drop src => simp [Counted.apply, hown]

/-- **The resource is released once, by the drop of the last reference.** -/
theorem open_or_closed_run {ops : List (CountedOp ω)} (hc : c.Open ∨ c.Closed)
    (h : c.AllAllowed ops) : (c.run ops).Open ∨ (c.run ops).Closed := by
  induction ops generalizing c with
  | nil => exact hc
  | cons op ops ih =>
    rw [run_cons]
    apply ih _ h.2
    rcases hc with hopen | hclosed
    · exact hopen.apply h.1
    · exact .inr ((hclosed.apply h.1).symm ▸ hclosed)

end Operations

/-- Whoever owns a reference has the resource open before them. -/
theorem open_of_mem {c : Counted ω} {o : ω} (hc : c.Open ∨ c.Closed) (ho : o ∈ c.owners) :
    c.Open := by
  rcases hc with hopen | hclosed
  · exact hopen
  · simp [hclosed.1] at ho

end Counted
