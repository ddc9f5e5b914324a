import Mathlib.Tactic.Common

/-!
# Buffered file streams

An `OFStream` appends to a file through a buffer. What the system does at
each transfer from the buffer to the file is an input, a `Transfer`; a plan
without a bound on what a transfer keeps covers every buffer capacity. A
failed transfer has moved a proper prefix of what was pending and makes the
stream bad, after which `write` and `flush` do nothing; `close` tries again.

An `IFStream` hands out a file from the front. A read past the end fills as
much of its destination as there is and makes the stream fail.
-/

namespace FileStream

variable {β : Type}

/-- One transfer: all but the last `n` pending elements reach the file, or it
fails with `n` of them, at least one, still pending. -/
inductive Transfer
  | keeps (n : Nat)
  | fails (n : Nat)
  deriving DecidableEq

def Transfer.Fails : Transfer → Prop
  | keeps _ => False
  | fails _ => True

instance : DecidablePred Transfer.Fails
  | .keeps _ => isFalse id
  | .fails _ => isTrue trivial

structure OFStream (β : Type) where
  file : List β
  pending : List β := []
  bad : Bool := false

namespace OFStream

/-- All but the last `kept` pending elements go to the file. -/
def move (s : OFStream β) (kept : Nat) : OFStream β :=
  let n := s.pending.length - kept
  { s with file := s.file ++ s.pending.take n, pending := s.pending.drop n }

/-- Nothing pending is nothing to fail on. -/
def transfer (s : OFStream β) : Transfer → OFStream β
  | .keeps n => s.move n
  | .fails n => if s.pending.isEmpty then s else { s.move (max 1 n) with bad := true }

def write (s : OFStream β) (xs : List β) (t : Transfer) : OFStream β :=
  if s.bad then s else { s with pending := s.pending ++ xs }.transfer t

/-- `flush` and `close` try to move everything; `some n` is a failure. -/
def drain (s : OFStream β) : Option Nat → OFStream β
  | none => s.transfer (.keeps 0)
  | some n => s.transfer (.fails n)

def flush (s : OFStream β) (t : Option Nat) : OFStream β := if s.bad then s else s.drain t

/-- The destructor closes the file without looking at the state. -/
def close (s : OFStream β) (t : Option Nat) : OFStream β := s.drain t

/-- What has been accepted: in the file, or on its way there. -/
def content (s : OFStream β) : List β := s.file ++ s.pending

@[simp] theorem content_move (s : OFStream β) : (s.move kept).content = s.content := by
  simp [content, move]

theorem pending_move (s : OFStream β) :
    (s.move kept).pending = [] ↔ kept = 0 ∨ s.pending = [] := by
  simp only [move, ← List.length_eq_zero_iff, List.length_drop]
  omega

@[simp] theorem content_transfer (s : OFStream β) : (s.transfer t).content = s.content := by
  cases t with
  | keeps n => exact content_move s
  | fails n =>
    by_cases hp : s.pending.isEmpty = true
    · rw [transfer, if_pos hp]
    · rw [transfer, if_neg hp]
      exact content_move s

@[simp] theorem content_drain (s : OFStream β) : (s.drain t).content = s.content := by
  cases t <;> exact content_transfer s

@[simp] theorem content_flush (s : OFStream β) : (s.flush t).content = s.content := by
  unfold flush
  split
  · rfl
  · exact content_drain s

@[simp] theorem content_close (s : OFStream β) : (s.close t).content = s.content :=
  content_drain s

theorem content_write (h : s.bad = false) : (write s xs t).content = s.content ++ xs := by
  rw [write, if_neg (by simp [h]), content_transfer]
  simp [content]

theorem write_of_bad (h : s.bad = true) : write s xs t = s := if_pos h

theorem bad_write (h : s.bad = false) (hx : xs ≠ []) :
    (write s xs t).bad = true ↔ t.Fails := by
  cases t <;> simp [write, h, transfer, move, hx, Transfer.Fails]

/-- A write leaves nothing pending only if its transfer keeps nothing. -/
theorem pending_write (h : s.bad = false) (hx : xs ≠ []) :
    (write s xs t).pending = [] ↔ t = .keeps 0 := by
  cases t with
  | keeps n => simp [write, h, transfer, pending_move, hx]
  | fails n =>
    have hmax : max 1 n ≠ 0 := by omega
    simp only [write, h, transfer, hx, List.isEmpty_iff, List.append_eq_nil_iff, and_false,
      Bool.false_eq_true, if_false, reduceCtorEq, iff_false]
    intro hp
    rcases (pending_move _).mp hp with hm | hm
    · exact hmax hm
    · simp [hx] at hm

theorem pending_drain (s : OFStream β) :
    (s.drain t).pending = [] ↔ t = none ∨ s.pending = [] := by
  cases t with
  | none => simp [drain, transfer, pending_move]
  | some n =>
    have hmax : max 1 n ≠ 0 := by omega
    by_cases hp : s.pending = []
    · simp [drain, transfer, hp]
    · simp only [drain, transfer, List.isEmpty_iff, hp, if_false, reduceCtorEq, or_self, iff_false]
      intro h
      rcases (pending_move s).mp h with hm | hm
      · exact hmax hm
      · exact hp hm

theorem pending_flush (h : s.bad = false) :
    (flush s t).pending = [] ↔ t = none ∨ s.pending = [] := by
  rw [flush, if_neg (by simp [h]), pending_drain]

theorem file_move (s : OFStream β) : s.file <+: (s.move kept).file := List.prefix_append _ _

theorem file_transfer (s : OFStream β) : s.file <+: (s.transfer t).file := by
  cases t with
  | keeps n => exact file_move s
  | fails n =>
    by_cases hp : s.pending.isEmpty = true
    · have hs : s.transfer (.fails n) = s := by rw [transfer, if_pos hp]
      exact hs.symm ▸ List.prefix_rfl
    · rw [transfer, if_neg hp]
      exact file_move s

theorem file_write (s : OFStream β) : s.file <+: (s.write xs t).file := by
  unfold write
  split
  · exact List.prefix_rfl
  · exact file_transfer { s with pending := s.pending ++ xs }

theorem file_drain (s : OFStream β) : s.file <+: (s.drain t).file := by
  cases t <;> exact file_transfer s

theorem file_flush (s : OFStream β) : s.file <+: (s.flush t).file := by
  unfold flush
  split
  · exact List.prefix_rfl
  · exact file_drain s

theorem file_close (s : OFStream β) : s.file <+: (s.close t).file := file_drain s

/-- What reached a file after what was in it, of all that was accepted. -/
theorem exists_file_eq {s : OFStream β} (hfile : log <+: s.file) (h : s.content = log ++ xs) :
    ∃ p, s.file = log ++ p ∧ p <+: xs ∧ (p = xs ↔ s.pending = []) := by
  obtain ⟨p, hp⟩ := hfile
  have hxs : p ++ s.pending = xs := by
    rw [content, ← hp, List.append_assoc] at h
    exact List.append_cancel_left h
  refine ⟨p, hp.symm, ⟨_, hxs⟩, ?_⟩
  rw [← hxs, List.self_eq_append_right]

theorem exists_file_close {s : OFStream β} (t : Option Nat) (hfile : log <+: s.file)
    (h : s.content = log ++ xs) :
    ∃ p, (s.close t).file = log ++ p ∧ p <+: xs ∧ (p = xs ↔ t = none ∨ s.pending = []) := by
  obtain ⟨p, hp, hprefix, hwhole⟩ :=
    exists_file_eq (hfile.trans (file_close (t := t) s)) ((content_close s).trans h)
  exact ⟨p, hp, hprefix, hwhole.trans (pending_drain s)⟩

-- ---------------------------------------------------------------------------
-- One write after another
-- ---------------------------------------------------------------------------

def writeAll (s : OFStream β) (ws : List (List β × Transfer)) : OFStream β :=
  ws.foldl (fun s w => s.write w.1 w.2) s

theorem writeAll_append (s : OFStream β) : s.writeAll (ws ++ ws') = (s.writeAll ws).writeAll ws' :=
  List.foldl_append

theorem file_writeAll (s : OFStream β) : s.file <+: (s.writeAll ws).file := by
  induction ws generalizing s with
  | nil => exact List.prefix_rfl
  | cons w ws ih => exact (file_write s).trans (ih _)

theorem writeAll_of_bad {s : OFStream β} (h : s.bad = true) : s.writeAll ws = s := by
  induction ws with
  | nil => rfl
  | cons w ws ih =>
    rw [writeAll, List.foldl_cons, write_of_bad h]
    exact ih

/-- Without a failure everything is accepted. -/
theorem writeAll_ok {s : OFStream β} (h : s.bad = false)
    (hws : ∀ w ∈ ws, w.1 ≠ [] ∧ ¬w.2.Fails) :
    (s.writeAll ws).bad = false ∧ (s.writeAll ws).content = s.content ++ ws.flatMap Prod.fst := by
  induction ws generalizing s with
  | nil => exact ⟨h, by simp [writeAll]⟩
  | cons w ws ih =>
    simp only [List.forall_mem_cons] at hws
    have hbad : (s.write w.1 w.2).bad = false := by
      simpa using mt (bad_write h hws.1.1).mp hws.1.2
    obtain ⟨hok, hcontent⟩ := ih hbad hws.2
    refine ⟨hok, hcontent.trans ?_⟩
    simp [content_write h]

/-- The first failure ends what is accepted, and leaves something pending. -/
theorem writeAll_fails {s : OFStream β} (ws' : List (List β × Transfer)) (h : s.bad = false)
    (hws : ∀ w ∈ ws, w.1 ≠ [] ∧ ¬w.2.Fails) (hw : w.1 ≠ []) (hf : w.2.Fails) :
    (s.writeAll (ws ++ w :: ws')).bad = true ∧ (s.writeAll (ws ++ w :: ws')).pending ≠ [] ∧
      (s.writeAll (ws ++ w :: ws')).content = s.content ++ (ws.flatMap Prod.fst ++ w.1) := by
  obtain ⟨hok, hcontent⟩ := writeAll_ok h hws
  have hbad : ((s.writeAll ws).write w.1 w.2).bad = true := (bad_write hok hw).mpr hf
  have hstop : s.writeAll (ws ++ w :: ws') = (s.writeAll ws).write w.1 w.2 := by
    rw [writeAll_append]
    exact writeAll_of_bad hbad
  rw [hstop]
  refine ⟨hbad, fun hp => ?_, ?_⟩
  · rw [(pending_write hok hw).mp hp] at hf
    exact hf
  · rw [content_write hok, hcontent, List.append_assoc]

theorem exists_first_failure {ws : List (List β × Transfer)} (h : ∃ w ∈ ws, w.2.Fails) :
    ∃ ws₁ w ws₂, ws = ws₁ ++ w :: ws₂ ∧ (∀ w ∈ ws₁, ¬w.2.Fails) ∧ w.2.Fails := by
  induction ws with
  | nil => simp at h
  | cons w ws ih =>
    by_cases hw : w.2.Fails
    · exact ⟨[], w, ws, rfl, by simp, hw⟩
    · obtain ⟨w', hw', hf⟩ := h
      rcases List.mem_cons.mp hw' with rfl | hw'
      · exact (hw hf).elim
      · obtain ⟨ws₁, w₀, ws₂, rfl, hws, hw₀⟩ := ih ⟨w', hw', hf⟩
        exact ⟨w :: ws₁, w₀, ws₂, rfl, by simpa [hw] using hws, hw₀⟩

end OFStream

-- ---------------------------------------------------------------------------
-- Reading
-- ---------------------------------------------------------------------------

structure IFStream (β : Type) where
  rest : List β
  failed : Bool := false

/-- `read(buffer, size)`: the destination keeps what is not overwritten. -/
def IFStream.read (s : IFStream β) (buffer : List β) : List β × IFStream β :=
  if s.failed then (buffer, s)
  else
    let got := s.rest.take buffer.length
    (got ++ buffer.drop got.length,
      { rest := s.rest.drop buffer.length, failed := s.rest.length < buffer.length })

/-- `peek() == eof`. -/
def IFStream.peekEof (s : IFStream β) : Bool := s.failed || s.rest.isEmpty

theorem IFStream.read_of_failed {s : IFStream β} (h : s.failed = true) :
    s.read buffer = (buffer, s) := if_pos h

theorem IFStream.length_rest_read (s : IFStream β) (buffer : List β) :
    (s.read buffer).2.rest.length ≤ s.rest.length := by
  unfold read
  split
  · exact Nat.le_refl _
  · simp

/-- A stream that failed stays so. -/
theorem IFStream.not_failed_of_read {s : IFStream β} (h : (s.read buffer).2.failed = false) :
    s.failed = false := by
  cases hs : s.failed with
  | false => rfl
  | true => rw [read_of_failed hs, hs] at h; cases h

/-- A read that succeeds has taken its whole size from the file. -/
theorem IFStream.length_rest_of_read {s : IFStream β} (h : (s.read buffer).2.failed = false) :
    (s.read buffer).2.rest.length + buffer.length ≤ s.rest.length := by
  unfold read at h ⊢
  split at h
  next hf => simp [hf] at h
  next hf =>
    simp only [decide_eq_false_iff_not] at h
    simp only [if_neg hf, List.length_drop]
    omega

theorem IFStream.read_append (h : xs.length = buffer.length) :
    read { rest := xs ++ tail : IFStream β } buffer = (xs, { rest := tail }) := by
  simp [read, ← h]

theorem IFStream.failed_read_of_lt {s : IFStream β} (h : s.rest.length < buffer.length) :
    (s.read buffer).2.failed = true := by
  unfold read
  split
  next hf => exact hf
  next => simpa using h

end FileStream
