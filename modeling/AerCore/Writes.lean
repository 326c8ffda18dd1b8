import Mathlib.Data.List.Induction
import Mathlib.Data.List.Nodup
import Mathlib.Logic.Function.Basic
import Mathlib.Tactic.Common

/-!
# Writes and the maps they leave

A sequence of writes `(a, b)` can be kept as a list in which each name keeps the
place of its first write and takes the value of its last, and it can be applied
to a map whose keys may identify names.  The two agree when distinct names have
distinct keys; otherwise the map shows, of the names of a key, the value of the
one that was first written last.

Nothing in this module is about a particular program.

## Main definitions

* `names l` — the names written, in order.
* `last key l k` — the value of the last write whose name has the key `k`.
* `replay key m l` — the map `m` after the writes `l`.
* `assign a b l`, `collapse l` — one write, and a sequence of writes, into a list.

## Main results

* `replay_apply` — a map after some writes holds the last write of a key, or what it held.
* `last_collapse` — for distinct keys the collapsed list has the same last writes.
* `last_collapse_eq_iff` — in general it has that of a key exactly when the newest name of the
  key has it.
-/

namespace Writes

variable {α β κ : Type*}

/-- The names written, in order. -/
def names (l : List (α × β)) : List α := l.map Prod.fst

@[simp] theorem names_nil : names ([] : List (α × β)) = [] := rfl

@[simp] theorem names_cons (e : α × β) (l : List (α × β)) : names (e :: l) = e.1 :: names l := rfl

@[simp] theorem names_append (l l' : List (α × β)) : names (l ++ l') = names l ++ names l' :=
  List.map_append

/-! ### The last write -/

section Last

variable [DecidableEq κ] (key : α → κ)

/-- The value of the last write whose name has the key `k`. -/
def last (l : List (α × β)) (k : κ) : Option β :=
  (l.reverse.find? fun e => key e.1 = k).map Prod.snd

@[simp] theorem last_nil (k : κ) : last key ([] : List (α × β)) k = none := rfl

theorem last_append (l l' : List (α × β)) (k : κ) :
    last key (l ++ l') k = (last key l' k).or (last key l k) := by
  unfold last
  rw [List.reverse_append, List.find?_append, Option.map_or]

theorem last_concat (l : List (α × β)) (a : α) (b : β) (k : κ) :
    last key (l ++ [(a, b)]) k = if key a = k then some b else last key l k := by
  rw [last_append]
  by_cases h : key a = k <;> simp [last, h]

theorem last_cons (a : α) (b : β) (l : List (α × β)) (k : κ) :
    last key ((a, b) :: l) k = (last key l k).or (if key a = k then some b else none) := by
  rw [← List.singleton_append, last_append]
  by_cases h : key a = k <;> simp [last, h]

theorem last_eq_none_iff {l : List (α × β)} {k : κ} :
    last key l k = none ↔ ∀ a ∈ names l, key a ≠ k := by
  simp [last, names]

theorem last_map {α' β' : Type*} (f : α' → α) (g : β' → β) (l : List (α' × β')) (k : κ) :
    last key (l.map (Prod.map f g)) k = (last (key ∘ f) l k).map g := by
  unfold last
  rw [← List.map_reverse, List.find?_map, Option.map_map, Option.map_map]
  rfl

/-- The map `m` after the writes `l`. -/
def replay (m : κ → Option β) (l : List (α × β)) : κ → Option β :=
  l.foldl (fun m e => Function.update m (key e.1) (some e.2)) m

/-- A map after some writes holds the last write of a key, or what it held before. -/
theorem replay_apply (m : κ → Option β) (l : List (α × β)) (k : κ) :
    replay key m l k = (last key l k).or (m k) := by
  induction l using List.reverseRecOn with
  | nil => rfl
  | append_singleton l e ih =>
    rw [last_concat, replay, List.foldl_concat, Function.update_apply]
    by_cases h : k = key e.1
    · rw [if_pos h, if_pos h.symm]
      rfl
    · rw [if_neg h, if_neg (Ne.symm h)]
      exact ih

/-- What is written under a key depends on the writes under it alone. -/
theorem last_filter {p : α × β → Bool} {k : κ} (l : List (α × β))
    (hp : ∀ e, key e.1 = k → p e = true) : last key (l.filter p) k = last key l k := by
  unfold last
  rw [← List.filter_reverse, List.find?_filter]
  refine congrArg (fun q => (List.find? q l.reverse).map Prod.snd) ?_
  ext e
  by_cases h : key e.1 = k <;> simp [h, hp e]

end Last

/-! ### Writes into a list -/

section Assign

variable [DecidableEq α]

/-- The value of the first entry of `a` is replaced; without one, an entry is pushed. -/
def assign (a : α) (b : β) : List (α × β) → List (α × β)
  | [] => [(a, b)]
  | e :: l => if e.1 = a then (e.1, b) :: l else e :: assign a b l

@[simp] theorem assign_nil (a : α) (b : β) : assign a b [] = [(a, b)] := rfl

theorem assign_cons_self (a : α) (b b' : β) (l : List (α × β)) :
    assign a b ((a, b') :: l) = (a, b) :: l := by
  simp [assign]

theorem assign_cons_of_ne {a : α} {e : α × β} (h : e.1 ≠ a) (b : β) (l : List (α × β)) :
    assign a b (e :: l) = e :: assign a b l := by
  simp [assign, h]

/-- A name keeps its place in the list; a new one goes to the end. -/
theorem names_assign (a : α) (b : β) (l : List (α × β)) :
    names (assign a b l) = if a ∈ names l then names l else names l ++ [a] := by
  induction l with
  | nil => simp
  | cons e l ih =>
    by_cases he : e.1 = a
    · obtain ⟨c, b'⟩ := e
      subst he
      simp [assign_cons_self]
    · have ha : a ≠ e.1 := Ne.symm he
      rw [assign_cons_of_ne he, names_cons, names_cons, ih]
      by_cases hmem : a ∈ names l
      · rw [if_pos hmem, if_pos (List.mem_cons_of_mem _ hmem)]
      · rw [if_neg hmem, if_neg (by simp [ha, hmem]), List.cons_append]

theorem nodup_names_assign {l : List (α × β)} (h : (names l).Nodup) (a : α) (b : β) :
    (names (assign a b l)).Nodup := by
  rw [names_assign]
  by_cases hmem : a ∈ names l
  · rw [if_pos hmem]
    exact h
  · rw [if_neg hmem]
    rw [← List.concat_eq_append]
    exact h.concat hmem

/-- An assignment sets the last write of its own key and no other. -/
theorem last_assign [DecidableEq κ] {key : α → κ} (hkey : Function.Injective key)
    {l : List (α × β)} (h : (names l).Nodup) (a : α) (b : β) (k : κ) :
    last key (assign a b l) k = if key a = k then some b else last key l k := by
  induction l with
  | nil =>
    rw [assign_nil, last_cons]
    rfl
  | cons e l ih =>
    obtain ⟨c, b'⟩ := e
    obtain ⟨hc, hl⟩ := List.nodup_cons.mp h
    by_cases hca : c = a
    · subst hca
      rw [assign_cons_self, last_cons, last_cons]
      by_cases hk : key c = k
      · have hnone : last key l k = none := by
          refine (last_eq_none_iff key).mpr fun a ha hak => hc ?_
          rwa [hkey (hk.trans hak.symm)]
        simp [hnone, hk]
      · simp [hk]
    · rw [assign_cons_of_ne hca, last_cons, last_cons, ih hl]
      by_cases hk : key a = k
      · simp [hk]
      · simp [hk]

/-- A sequence of writes into the empty list. -/
def collapse (l : List (α × β)) : List (α × β) := l.foldl (fun l e => assign e.1 e.2 l) []

theorem collapse_concat (l : List (α × β)) (e : α × β) :
    collapse (l ++ [e]) = assign e.1 e.2 (collapse l) := by
  unfold collapse
  rw [List.foldl_concat]

/-- The collapsed list has each name once, in the order of the first writes. -/
theorem names_collapse (l : List (α × β)) : names (collapse l) = (names l).eraseDups := by
  induction l using List.reverseRecOn with
  | nil => rfl
  | append_singleton l e ih =>
    rw [collapse_concat, names_assign, ih, names_append, List.eraseDups_append]
    by_cases h : e.1 ∈ names l
    · simp [h, List.removeAll]
    · simp [h, List.removeAll, List.eraseDups_cons]

theorem nodup_names_collapse (l : List (α × β)) : (names (collapse l)).Nodup := by
  induction l using List.reverseRecOn with
  | nil => exact List.nodup_nil
  | append_singleton l e ih =>
    rw [collapse_concat]
    exact nodup_names_assign ih e.1 e.2

/-- When distinct names have distinct keys, the collapsed list has the same last writes. -/
theorem last_collapse [DecidableEq κ] {key : α → κ} (hkey : Function.Injective key)
    (l : List (α × β)) (k : κ) : last key (collapse l) k = last key l k := by
  induction l using List.reverseRecOn with
  | nil => rfl
  | append_singleton l e ih =>
    rw [collapse_concat, last_assign hkey (nodup_names_collapse l), last_concat, ih]

/-- The name of the key `k` that was first written last. -/
def newest [DecidableEq κ] (key : α → κ) (l : List (α × β)) (k : κ) : Option α :=
  (names l).eraseDups.reverse.find? fun a => key a = k

theorem last_id_of_mem {l : List (α × β)} (h : (names l).Nodup) {a : α} {b : β}
    (hab : (a, b) ∈ l) : last id l a = some b := by
  induction l with
  | nil => cases hab
  | cons e l ih =>
    obtain ⟨c, b'⟩ := e
    obtain ⟨hc, hl⟩ := List.nodup_cons.mp h
    rw [last_cons]
    rcases List.mem_cons.mp hab with heq | hab
    · obtain ⟨rfl, rfl⟩ := Prod.mk.inj heq
      have hnone : last id l a = none :=
        (last_eq_none_iff id).mpr fun a' ha' haa => hc (haa ▸ ha')
      simp [hnone]
    · rw [ih hl hab]
      rfl

/-- Under a key of several names, the collapsed list has the last write of the newest of
them. -/
theorem last_collapse_eq_bind [DecidableEq κ] (key : α → κ) (l : List (α × β)) (k : κ) :
    last key (collapse l) k = (newest key l k).bind (last id l) := by
  have hfind : newest key l k =
      ((collapse l).reverse.find? fun e => key e.1 = k).map Prod.fst := by
    rw [newest, ← names_collapse, names, ← List.map_reverse, List.find?_map]
    rfl
  rw [hfind, last]
  cases he : (collapse l).reverse.find? fun e => key e.1 = k with
  | none => rfl
  | some e =>
    have hmem : (e.1, e.2) ∈ collapse l := List.mem_reverse.mp (List.mem_of_find?_eq_some he)
    show some e.2 = last id l e.1
    rw [← last_collapse Function.injective_id, last_id_of_mem (nodup_names_collapse l) hmem]

theorem newest_eq_none_iff [DecidableEq κ] {key : α → κ} {l : List (α × β)} {k : κ} :
    newest key l k = none ↔ last key l k = none := by
  rw [last_eq_none_iff, newest, List.find?_eq_none]
  simp [List.mem_eraseDups]

/-- The collapsed list has the last write of a key exactly when the newest name of the key has
it. -/
theorem last_collapse_eq_iff [DecidableEq κ] (key : α → κ) (l : List (α × β)) (k : κ) :
    last key (collapse l) k = last key l k ↔
      ∀ a, newest key l k = some a → last id l a = last key l k := by
  rw [last_collapse_eq_bind]
  cases hn : newest key l k with
  | none => simp [newest_eq_none_iff.mp hn]
  | some a => simp

theorem last_collapse_eq_none_iff [DecidableEq κ] (key : α → κ) (l : List (α × β)) (k : κ) :
    last key (collapse l) k = none ↔ last key l k = none := by
  rw [last_eq_none_iff, last_eq_none_iff, names_collapse]
  simp only [List.mem_eraseDups]

end Assign

end Writes
