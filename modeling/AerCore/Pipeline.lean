import AerCore.Deadline

/-!
# The two ends of a pipe

The labels of a run record every write of a process and every read of a drain thread, so it
can be said where each byte of a stream is: those that have been written are those that have
been taken out of the pipe followed by those still in it.  The forced kill closes write ends
and empties no pipe, so this holds whatever becomes of the processes.

The end of file is final: once a drain thread has seen it nobody holds the pipe, and nobody
will write to it again.

## Main definitions

* `writtenTo`, `takenFrom` — the bytes that have gone in at one end, and out at the other.

## Main results

* `RunMove.buf` — what a step does to a pipe.
* `piped_of_reaches` — **nothing is lost, duplicated or reordered in a pipe**.
* `ended_of_reaches` — **nothing comes after the end of file**.
-/

namespace AerCore

variable {ι : Type*}

/-! ### The two ends of a pipe -/

section Labels

variable [DecidableEq ι] (i : ι) (s : Stream)

/-- The bytes that a process of run `i` writes to stream `s` with the label. -/
def Label.writeOf : Label ι → List UInt8
  | .proc j (.write _ s' bytes) => if j = i ∧ s' = s then bytes else []
  | _ => []

/-- Everything the processes of run `i` have written to stream `s`, in order. -/
def writtenTo (tr : List (Label ι)) : List UInt8 := tr.flatMap (Label.writeOf i s)

/-- The bytes a read returned. -/
def ReadResult.payload : ReadResult → List UInt8
  | .bytes bs => bs
  | .eof | .interrupted | .error _ => []

/-- The bytes that a drain thread takes out of stream `s` of run `i` with the label. -/
def Label.takeOf (l : Label ι) : List UInt8 :=
  ((l.readOf? i s).map ReadResult.payload).getD []

/-- Everything that has been taken out of stream `s` of run `i`, in order. -/
def takenFrom (tr : List (Label ι)) : List UInt8 := tr.flatMap (Label.takeOf i s)

theorem writtenTo_concat (tr : List (Label ι)) (l : Label ι) :
    writtenTo i s (tr ++ [l]) = writtenTo i s tr ++ l.writeOf i s := by
  simp [writtenTo]

theorem takenFrom_concat (tr : List (Label ι)) (l : Label ι) :
    takenFrom i s (tr ++ [l]) = takenFrom i s tr ++ l.takeOf i s := by
  simp [takenFrom]

variable {i s}

theorem writeOf_of_not_touches {l : Label ι} (h : l.touches i = false) : l.writeOf i s = [] := by
  cases l with
  | proc j a =>
    have hj : j ≠ i := by simpa [Label.touches] using h
    cases a <;> simp [Label.writeOf, hj]
  | _ => rfl

theorem takeOf_of_not_touches {l : Label ι} (h : l.touches i = false) : l.takeOf i s = [] := by
  cases l with
  | drain j s' a =>
    have hj : j ≠ i := by simpa [Label.touches] using h
    cases a <;> simp [Label.takeOf, Label.readOf?, hj]
  | _ => rfl

end Labels

/-! ### Nothing is lost in a pipe -/

namespace Tree

@[simp] theorem buf_setBuf_self (t : Tree) (s : Stream) (bs : List UInt8) :
    (t.setBuf s bs).buf s = bs := by cases s <;> rfl

theorem buf_setBuf_ne (t : Tree) {s s' : Stream} (bs : List UInt8) (h : s ≠ s') :
    (t.setBuf s' bs).buf s = t.buf s := by
  cases s <;> cases s' <;> first | rfl | exact absurd rfl h

@[simp] theorem buf_unborn (s : Stream) : unborn.buf s = [] := by cases s <;> rfl

@[simp] theorem buf_spawned (s : Stream) (b : Bool) : (spawned b).buf s = [] := by
  cases s <;> rfl

@[simp] theorem buf_killGroup (t : Tree) (s : Stream) (status : Option ℤ) :
    (t.killGroup status).buf s = t.buf s := by cases s <;> rfl

@[simp] theorem buf_killRoot (t : Tree) (s : Stream) (status : Option ℤ) :
    (t.killRoot status).buf s = t.buf s := by
  unfold killRoot
  split <;> cases s <;> rfl

@[simp] theorem buf_root (t : Tree) (s : Stream) (root : Root) :
    ({ t with root := root } : Tree).buf s = t.buf s := by cases s <;> rfl

end Tree

/-- `Command::spawn` has not been called yet. -/
def SpawnPc.beforeCommand : SpawnPc → Bool
  | .createJob | .setInfo | .command => true
  | .assign _ | .killChild _ | .waitChild _ => false

/-- There is no process before `Command::spawn`. -/
def Unspawned (r : Run) : Prop :=
  ∀ s, r.main = .spawn s → s.beforeCommand = true → r.tree = .unborn

/-- What is not there does nothing. -/
theorem procStep_unborn (env : Env) (a : ProcAct) : procStep env .unborn a = none := by
  cases a with
  | fork who | close who s => cases who <;> rfl
  | write who s bs => cases who <;> rfl
  | leave n => simp [procStep, Tree.unborn]
  | _ => rfl

section Moves

variable {env : Env} {c : RunConfig} {i : ι} {hd hd' : CancelHandle ι} {r r' : Run}
  {t t' : Tree} {l : Label ι} {s : Stream}

/-- What a step of `spawn` does to a pipe: nothing, and it makes an empty one. -/
theorem spawnStep_buf {sp : SpawnPc} {a : SpawnAct} {n : SpawnNext}
    (h : spawnStep env t sp a = some (t', n)) (ht : sp.beforeCommand = true → t = .unborn) :
    t'.buf s = t.buf s := by
  unfold spawnStep at h
  split at h
  · cases h; rfl
  · cases h; rfl
  · next r =>
    rw [ht rfl]
    cases r with
    | error e => cases h; exact (congrArg (Tree.buf · s) (ht rfl)).trans rfl
    | ok pid =>
      simp only [Option.some.injEq] at h
      split at h <;> cases h <;> simp
  · next r => cases r <;> cases h <;> cases s <;> rfl
  · next e r =>
    obtain ⟨-, h⟩ := Option.ite_none_right_eq_some.mp h
    cases h
    split <;> simp
  · next e r =>
    cases r with
    | error e' => cases h; rfl
    | ok u =>
      obtain ⟨t₁, ht₁, h⟩ := Option.map_eq_some_iff.mp h
      cases h
      unfold Tree.reapRoot at ht₁
      split at ht₁ <;> cases ht₁ <;> simp
  · cases h

theorem unspawned_move [DecidableEq ι] (h : RunMove env c i hd r l r') (hu : Unstarted env r)
    (hn : Unspawned r) : Unspawned r' := by
  intro sp hs hsp
  cases h with
  | main h =>
    obtain ⟨-, b, rfl⟩ := (hs ▸ h.edge).of_spawn
    cases h with
    | @spawnMore sp₀ a t sp' pc h =>
      cases hs
      -- only the two steps before `Command::spawn` lead to a place before it
      unfold spawnStep at h
      split at h
      · next x => cases x <;> cases h; exact hn _ pc rfl
      · next x => cases x <;> cases h; exact hn _ pc rfl
      · next x =>
        cases x with
        | error e => cases h
        | ok pid =>
          simp only [Option.some.injEq] at h
          split at h <;> cases h
          cases hsp
      · next x => cases x <;> cases h; cases hsp
      · obtain ⟨-, h⟩ := Option.ite_none_right_eq_some.mp h
        cases h
        cases hsp
      · next x =>
        cases x with
        | error e => cases h
        | ok u =>
          obtain ⟨t₁, -, h⟩ := Option.map_eq_some_iff.mp h
          cases h
      · cases h
    | spawnOk | spawnFailed => cases hs
  | monitor h =>
    have hne := h.monitor_ne_idle
    rw [hu sp (h.main_eq ▸ hs)] at hne
    exact absurd rfl hne
  | wait h =>
    have hne := h.pc_ne_idle
    rw [hu sp hs] at hne
    exact absurd rfl hne
  | @drain st _ _ _ h =>
    have hne := h.pc_ne_idle
    rw [hu sp hs] at hne
    cases st <;> exact absurd rfl hne
  | proc h =>
    rw [hn sp hs hsp, procStep_unborn] at h
    cases h
  | cancelKill h =>
    have ht := hn sp hs hsp
    rcases killEscalatingStep_tree h with he | ⟨status, he⟩ | ⟨status, he⟩
    · exact he.trans ht
    · exact he.trans (by rw [ht]; rfl)
    · exact he.trans (by rw [ht]; rfl)
  | other => exact hn sp hs hsp

/-- The threads of the program leave a pipe alone, the drain thread apart. -/
theorem MainMove.buf {a : MainAct} (h : MainMove env c i hd r a hd' r') (hn : Unspawned r) :
    r'.tree.buf s = r.tree.buf s := by
  cases h with
  | spawnMore pc h | spawnOk pc h | spawnFailed pc h => exact spawnStep_buf h (hn _ pc)
  | killMore _ h | killDone _ h | guardMore _ h | guardDone _ h =>
    rcases killEscalatingStep_tree h with rfl | ⟨status, rfl⟩ | ⟨status, rfl⟩ <;> simp
  | guardReap _ h =>
    obtain ⟨-, -, h⟩ | rfl := reapAbandoned_cases h
    · unfold Tree.reapRoot at h
      split at h <;> cases h <;> simp
    · rfl
  | @joinWait res | @waitReturned res => cases res <;> rfl
  | _ => rfl

theorem MonitorMove.buf {a : MonitorAct} (h : MonitorMove env r a r') :
    r'.tree.buf s = r.tree.buf s := by
  cases h with
  | killMore _ h | killDone _ h =>
    rcases killEscalatingStep_tree h with rfl | ⟨status, rfl⟩ | ⟨status, rfl⟩ <;> simp
  | _ => rfl

theorem WaitMove.buf {capture : Bool} {o o' : Output} {w w' : Waiter} {a : WaitAct}
    (h : WaitMove env capture t o w a t' o' w') : t'.buf s = t.buf s := by
  cases h with
  | childWait => simp
  | killTree _ h =>
    unfold AerCore.killTree at h
    split at h <;> obtain ⟨-, h⟩ := Option.ite_none_right_eq_some.mp h <;> cases h <;>
      split <;> simp
  | _ => rfl

/-- A process puts into a pipe what it writes. -/
theorem procStep_buf [DecidableEq ι] {a : ProcAct} (h : procStep env t a = some t') :
    t'.buf s = t.buf s ++ Label.writeOf i s (.proc i a) := by
  cases a with
  | rootExit | kidReap =>
    obtain ⟨-, h⟩ := Option.ite_none_right_eq_some.mp h
    cases h
    cases s <;> simp [Label.writeOf, Tree.buf]
  | fork | kidExit =>
    obtain ⟨p, -, rfl⟩ := Option.map_eq_some_iff.mp h
    cases s <;> simp [Label.writeOf, Tree.buf]
  | leave n =>
    obtain ⟨-, h⟩ := Option.ite_none_right_eq_some.mp h
    obtain ⟨p, -, rfl⟩ := Option.map_eq_some_iff.mp h
    cases s <;> simp [Label.writeOf, Tree.buf]
  | close who s' =>
    obtain ⟨p, -, rfl⟩ := Option.map_eq_some_iff.mp h
    cases who <;> cases s <;> simp [Label.writeOf, Tree.buf, Tree.setProc]
  | write who s' bs =>
    simp only [procStep] at h
    split at h
    · cases h
    · obtain ⟨-, h⟩ := Option.ite_none_right_eq_some.mp h
      cases h
      by_cases hs : s = s'
      · subst hs
        simp [Label.writeOf]
      · simp [Label.writeOf, Tree.buf_setBuf_ne _ _ hs, Ne.symm hs]

/-- A drain thread takes out of a pipe what it reads. -/
theorem DrainMove.buf [DecidableEq ι] {capture : Bool} {s' : Stream} {o o' : Output}
    {a : DrainAct} (h : DrainMove capture s' t o a t' o') :
    t.buf s = Label.takeOf i s (.drain i s' a) ++ t'.buf s := by
  cases h with
  | @readBytes bs pc pos le unread =>
    by_cases hs : s = s'
    · subst hs
      obtain ⟨rest, hrest⟩ := List.isPrefixOf_iff_prefix.mp unread
      simp [Label.takeOf, Label.readOf?, ReadResult.payload, ← hrest]
    · simp [Label.takeOf, Label.readOf?, Tree.buf_setBuf_ne _ _ hs, Ne.symm hs]
  | readEof | readInterrupted | readError =>
    by_cases hs : s' = s <;> simp [Label.takeOf, Label.readOf?, ReadResult.payload, hs]
  | send => rfl

/-- **What a step does to a pipe**: what is written comes in behind, what is read goes out in
front. -/
theorem RunMove.buf [DecidableEq ι] (h : RunMove env c i hd r l r') (hn : Unspawned r) :
    r.tree.buf s ++ l.writeOf i s = l.takeOf i s ++ r'.tree.buf s := by
  cases h with
  | main h => simpa [Label.writeOf, Label.takeOf, Label.readOf?] using (h.buf hn).symm
  | monitor h => simpa [Label.writeOf, Label.takeOf, Label.readOf?] using h.buf.symm
  | wait h => simpa [Label.writeOf, Label.takeOf, Label.readOf?] using h.buf.symm
  | drain h => simpa [Label.writeOf] using h.buf
  | proc h => simpa [Label.takeOf, Label.readOf?] using (procStep_buf h).symm
  | cancelKill h =>
    rcases killEscalatingStep_tree h with rfl | ⟨status, rfl⟩ | ⟨status, rfl⟩ <;>
      simp [Label.writeOf, Label.takeOf, Label.readOf?]
  | other hl => simp [writeOf_of_not_touches hl, takeOf_of_not_touches hl]

end Moves

section Runs

variable [DecidableEq ι] {env : Env} {cfg : ι → RunConfig} {tr : List (Label ι)} {w : World ι}

theorem unspawned_of_reaches (h : Reaches env cfg tr w) (i : ι) : Unspawned (w.runs i) := by
  refine Lts.exec_invariant (P := fun _ w => Unspawned (w.runs i)) (fun _ _ _ => rfl) ?_ h
  intro tr w l w' hw hn hstep
  exact unspawned_move (runMove_of_step hstep i) (unstarted_of_reaches hw i) hn

/-- **Nothing is lost, duplicated or reordered in a pipe.** -/
theorem piped_of_reaches (h : Reaches env cfg tr w) (i : ι) (s : Stream) :
    writtenTo i s tr = takenFrom i s tr ++ (w.runs i).tree.buf s := by
  refine Lts.exec_invariant
    (P := fun tr w => writtenTo i s tr = takenFrom i s tr ++ (w.runs i).tree.buf s) ?_ ?_ h
  · cases s <;> rfl
  · intro tr w l w' hw ih hstep
    have hbuf := (runMove_of_step hstep i).buf (unspawned_of_reaches hw i) (s := s)
    rw [writtenTo_concat, takenFrom_concat, ih, List.append_assoc, hbuf, List.append_assoc]

end Runs

/-! ### The end of file is final -/

/-- Every holder of a stream is, or descends from, a holder: a write end is not made again. -/
theorem procStep_held {env : Env} {t t' : Tree} {a : ProcAct} {s : Stream}
    (h : procStep env t a = some t') (hh : t.held s = false) : t'.held s = false := by
  rw [Bool.eq_false_iff] at hh ⊢
  intro hheld
  obtain ⟨who', p', hp', hholds⟩ := Tree.held_iff.mp hheld
  apply hh
  suffices ∃ who p, t.proc? who = some p ∧ p.holds s = true from Tree.held_iff.mpr this
  -- a live descendant of `t` that holds the stream
  have kid : ∀ {p : Proc}, p ∈ t.kids → p.holds s = true →
      ∃ who p, t.proc? who = some p ∧ p.holds s = true := by
    intro p hp hs
    obtain ⟨n, hn⟩ := Tree.exists_proc?_of_mem hp
    exact ⟨.kid n, p, hn, hs⟩
  cases a with
  | rootExit status =>
    obtain ⟨-, h⟩ := Option.ite_none_right_eq_some.mp h
    cases h
    cases who' with
    | root => cases (Tree.proc?_root_eq_some.mp hp').1
    | kid n => exact kid (Tree.proc?_kid_mem hp') hholds
  | fork who =>
    obtain ⟨p, hp, rfl⟩ := Option.map_eq_some_iff.mp h
    cases who' with
    | root => exact ⟨.root, p', hp', hholds⟩
    | kid n =>
      rcases List.mem_append.mp (Tree.proc?_kid_mem hp') with hm | hm
      · exact kid hm hholds
      · obtain rfl := List.mem_singleton.mp hm
        exact ⟨who, p', hp, hholds⟩
  | kidExit n =>
    obtain ⟨p, -, rfl⟩ := Option.map_eq_some_iff.mp h
    cases who' with
    | root => exact ⟨.root, p', hp', hholds⟩
    | kid n => exact kid (List.mem_of_mem_eraseIdx (Tree.proc?_kid_mem hp')) hholds
  | kidReap =>
    obtain ⟨-, h⟩ := Option.ite_none_right_eq_some.mp h
    cases h
    exact ⟨who', p', hp', hholds⟩
  | leave n =>
    obtain ⟨-, h⟩ := Option.ite_none_right_eq_some.mp h
    obtain ⟨p, hp, rfl⟩ := Option.map_eq_some_iff.mp h
    cases who' with
    | root => exact ⟨.root, p', hp', hholds⟩
    | kid m =>
      rcases List.mem_or_eq_of_mem_set (Tree.proc?_kid_mem hp') with hm | rfl
      · exact kid hm hholds
      · exact kid (List.mem_of_getElem? hp) (by cases s <;> exact hholds)
  | close who s' =>
    obtain ⟨p, hp, rfl⟩ := Option.map_eq_some_iff.mp h
    -- the process that closes an end holds no more than before
    have hclose : (p.close s').holds s = true → p.holds s = true := by
      cases s <;> cases s' <;> first | exact id | exact fun h => by cases h
    cases who with
    | root =>
      obtain ⟨hlive, rfl⟩ := Tree.proc?_root_eq_some.mp hp
      cases who' with
      | root =>
        obtain ⟨-, rfl⟩ := Tree.proc?_root_eq_some.mp hp'
        exact ⟨.root, t.leader, hp, hclose hholds⟩
      | kid n => exact kid (Tree.proc?_kid_mem hp') hholds
    | kid n =>
      cases who' with
      | root => exact ⟨.root, p', hp', hholds⟩
      | kid m =>
        rcases List.mem_or_eq_of_mem_set (Tree.proc?_kid_mem hp') with hm | rfl
        · exact kid hm hholds
        · exact ⟨.kid n, p, hp, hclose hholds⟩
  | write who s' bs =>
    simp only [procStep] at h
    split at h
    · cases h
    · obtain ⟨-, h⟩ := Option.ite_none_right_eq_some.mp h
      cases h
      cases who' with
      | root =>
        obtain ⟨hlive, rfl⟩ := Tree.proc?_root_eq_some.mp hp'
        rw [Tree.setBuf_root] at hlive
        rw [Tree.setBuf_leader] at hholds
        exact ⟨.root, t.leader, Tree.proc?_root_eq_some.mpr ⟨hlive, rfl⟩, hholds⟩
      | kid n =>
        have hm := Tree.proc?_kid_mem hp'
        rw [Tree.setBuf_kids] at hm
        exact kid hm hholds

/-- Nobody writes to a stream that is not held. -/
theorem writeOf_of_not_held [DecidableEq ι] {env : Env} {i : ι} {t t' : Tree} {a : ProcAct}
    {s : Stream} (h : procStep env t a = some t') (hh : t.held s = false) :
    Label.writeOf i s (.proc i a) = [] := by
  cases a with
  | write who s' bs =>
    simp only [procStep] at h
    split at h
    · cases h
    · next p hp =>
      obtain ⟨⟨hholds, -⟩, -⟩ := Option.ite_none_right_eq_some.mp h
      by_cases hs : s' = s
      · subst hs
        rw [Tree.held_iff.mpr ⟨who, p, hp, hholds⟩] at hh
        cases hh
      · simp [Label.writeOf, hs]
  | _ => rfl

section Ended

variable [DecidableEq ι] {env : Env} {cfg : ι → RunConfig} {tr : List (Label ι)} {w w' : World ι}
  {l : Label ι} {i : ι} {s : Stream}

/-- A drain thread that has been started stays so. -/
theorem RunMove.drain_ne_idle {c : RunConfig} {hd : CancelHandle ι} {r r' : Run}
    (h : RunMove env c i hd r l r') (hd : (r.output.drain s).pc ≠ .idle) :
    (r'.output.drain s).pc ≠ .idle := by
  cases h with
  | main h => rw [h.drain_eq]; exact hd
  | monitor h => rw [h.output_eq]; exact hd
  | wait h => cases h <;> cases s <;> first | exact hd | exact fun h => by cases h
  | @drain s' _ _ _ h =>
    by_cases hs : s = s'
    · subst hs
      cases h with
      | readBytes => simp only [Output.drain_setDrain_self]; split <;> exact fun h => by cases h
      | readEof | readError => simp
      | readInterrupted =>
        split
        · simp
        · exact hd
      | send => simp
    · rw [h.drain_ne hs]
      exact hd
  | proc | cancelKill => exact hd
  | other => exact hd

/-- A step of a drain thread is made after the thread was started. -/
theorem drain_started_of_mem (h : Reaches env cfg tr w) {a : DrainAct} (ha : .drain i s a ∈ tr) :
    ((w.runs i).output.drain s).pc ≠ .idle := by
  refine Lts.exec_invariant (P := fun tr w => .drain i s a ∈ tr →
    ((w.runs i).output.drain s).pc ≠ .idle) (fun h => by cases h) ?_ h ha
  intro tr w l w' hw ih hstep ha
  have hmove := runMove_of_step hstep i
  rcases List.mem_append.mp ha with ha | ha
  · exact hmove.drain_ne_idle (ih ha)
  · obtain rfl := List.mem_singleton.mp ha
    refine hmove.drain_ne_idle ?_
    generalize w'.runs i = r' at hmove
    cases hmove with
    | drain h => exact h.pc_ne_idle
    | other hl => simp [Label.touches] at hl

/-- **Nothing comes after the end of file**: nobody holds the pipe, and nothing is in it. -/
theorem ended_of_reaches (h : Reaches env cfg tr w) (heof : .drain i s (.read .eof) ∈ tr) :
    (w.runs i).tree.buf s = [] ∧ (w.runs i).tree.held s = false := by
  refine Lts.exec_invariant (P := fun tr w => .drain i s (.read .eof) ∈ tr →
    (w.runs i).tree.buf s = [] ∧ (w.runs i).tree.held s = false) (fun h => by cases h) ?_ h heof
  intro tr w l w' hw ih hstep heof
  have hmove := runMove_of_step hstep i
  rcases List.mem_append.mp heof with hold | hnew
  · obtain ⟨hempty, hheld⟩ := ih hold
    have hpipe := hmove.buf (unspawned_of_reaches hw i) (s := s)
    -- the drain threads exist, so `spawn` is over
    have hspawn : ∀ a, l ≠ .main i (.spawn a) := by
      rintro a rfl
      rcases mainMove_or_stays hstep i with ⟨b, hb, hm⟩ | ⟨hne, -⟩
      · cases hb
        obtain ⟨sp, hsp⟩ := hm.edge.spawning
        have hidle := drain_started_of_mem hw hold
        rw [unstarted_of_reaches hw i sp hsp] at hidle
        cases s <;> exact absurd rfl hidle
      · exact hne _ rfl
    have htree := hmove.tree hspawn
    have hwrite : l.writeOf i s = [] := by
      generalize w'.runs i = r' at hmove
      cases hmove with
      | proc h => exact writeOf_of_not_held h hheld
      | other hl => exact writeOf_of_not_touches hl
      | _ => rfl
    rw [hempty, hwrite, List.nil_append] at hpipe
    refine ⟨(List.append_eq_nil_iff.mp hpipe.symm).2, ?_⟩
    cases htree with
    | proc h => exact procStep_held h hheld
    | forced h => exact h.held hheld
  · obtain rfl := List.mem_singleton.mp hnew
    generalize w'.runs i = r' at hmove ⊢
    cases hmove with
    | drain h => cases h with | readEof _ empty free => exact ⟨empty, free⟩
    | other hl => simp [Label.touches] at hl

end Ended

end AerCore
