import Mathlib.Tactic.Common

/-!
# Logs of frames

A log is a concatenation of frames; `frame s a` says that `s` is a frame with
the content `a`. Frames are `Delimited` when none is empty and no two
different ones can start at the same place, so that a log can be read in one
way only. What follows the frames at the front of a file is `Stuck` when it
does not begin with a frame; then the frames before it are the longest prefix
that is a log (`longest_iff`).
-/

namespace FramedLog

variable {β α : Type} {frame : List β → α → Prop}

inductive Frames (frame : List β → α → Prop) : List β → List α → Prop
  | nil : Frames frame [] []
  | cons : frame s a → Frames frame log as → Frames frame (s ++ log) (a :: as)

theorem Frames.mono {frame' : List β → α → Prop} (h : Frames frame log as)
    (hf : ∀ s a, frame s a → frame' s a) : Frames frame' log as := by
  induction h with
  | nil => exact .nil
  | cons hs _ ih => exact .cons (hf _ _ hs) ih

theorem Frames.append (h : Frames frame s as) (h' : Frames frame s' as') :
    Frames frame (s ++ s') (as ++ as') := by
  induction h with
  | nil => exact h'
  | cons hf _ ih =>
    rw [List.append_assoc]
    exact .cons hf ih

theorem Frames.single (h : frame s a) : Frames frame s [a] := by
  have hone := Frames.cons h .nil
  rwa [List.append_nil] at hone

theorem Frames.snoc (h : Frames frame s as) (hf : frame s' a) :
    Frames frame (s ++ s') (as ++ [a]) := h.append (.single hf)

structure Delimited (frame : List β → α → Prop) : Prop where
  ne_nil : ∀ s a, frame s a → s ≠ []
  unique : ∀ s a s' a' t t', frame s a → frame s' a' → s ++ t = s' ++ t' → s = s' ∧ a = a'

/-- No frame at the front. -/
def Stuck (frame : List β → α → Prop) (rest : List β) : Prop :=
  ∀ s a t, frame s a → rest ≠ s ++ t

theorem Delimited.stuck_nil (hd : Delimited frame) : Stuck frame [] := by
  intro s a t hf h
  exact hd.ne_nil s a hf (List.append_eq_nil_iff.mp h.symm).1

theorem Delimited.exists_stuck (hd : Delimited frame) (file : List β) :
    ∃ log as rest, file = log ++ rest ∧ Frames frame log as ∧ Stuck frame rest := by
  induction hn : file.length using Nat.strongRecOn generalizing file with
  | ind n ih =>
    by_cases hs : Stuck frame file
    · exact ⟨[], [], file, rfl, .nil, hs⟩
    · simp only [Stuck, ne_eq, not_forall, not_not] at hs
      obtain ⟨s, a, t, hf, rfl⟩ := hs
      have hpos := List.length_pos_iff.mpr (hd.ne_nil s a hf)
      have hlt : t.length < n := by
        rw [← hn, List.length_append]
        omega
      obtain ⟨log, as, rest, rfl, hlog, hrest⟩ := ih t.length hlt t rfl
      exact ⟨s ++ log, a :: as, rest, by simp, .cons hf hlog, hrest⟩

theorem Frames.prefix_of_stuck (hd : Delimited frame) (h : Frames frame s as)
    (h' : Frames frame s' as') (hstuck : Stuck frame t) (heq : s ++ t = s' ++ t') :
    ∃ u us, s = s' ++ u ∧ as = as' ++ us := by
  induction h' generalizing s as with
  | nil => exact ⟨s, as, rfl, rfl⟩
  | @cons f' a' log' as' hf' _ ih =>
    rw [List.append_assoc] at heq
    cases h with
    | nil => exact (hstuck _ _ _ hf' heq).elim
    | @cons f a log as hf h =>
      rw [List.append_assoc] at heq
      obtain ⟨rfl, rfl⟩ := hd.unique _ _ _ _ _ _ hf hf' heq
      obtain ⟨u, us, rfl, rfl⟩ := ih h (List.append_cancel_left heq)
      exact ⟨u, us, by simp, by simp⟩

/-- The longest prefix of a file that is a log. -/
structure Longest (frame : List β → α → Prop) (file log : List β) (as : List α) : Prop where
  frames : Frames frame log as
  isPrefix : log <+: file
  longest : ∀ log' as', Frames frame log' as' → log' <+: file → log'.length ≤ log.length

theorem longest_iff (hd : Delimited frame) : Longest frame file log as ↔
    ∃ rest, file = log ++ rest ∧ Frames frame log as ∧ Stuck frame rest := by
  constructor
  · rintro ⟨hf, ⟨rest, rfl⟩, hlongest⟩
    refine ⟨rest, rfl, hf, ?_⟩
    rintro s a t hs rfl
    have hle := hlongest _ _ (hf.snoc hs) ⟨t, by simp⟩
    have hpos := List.length_pos_iff.mpr (hd.ne_nil s a hs)
    simp only [List.length_append] at hle
    omega
  · rintro ⟨rest, rfl, hf, hstuck⟩
    refine ⟨hf, ⟨rest, rfl⟩, ?_⟩
    rintro log' as' hf' ⟨rest', heq⟩
    obtain ⟨u, us, rfl, -⟩ := hf.prefix_of_stuck hd hf' hstuck heq.symm
    simp

theorem Longest.unique (hd : Delimited frame) (h : Longest frame file log as)
    (h' : Longest frame file log' as') : log = log' ∧ as = as' := by
  obtain ⟨rest, rfl, hf, hstuck⟩ := (longest_iff hd).mp h
  obtain ⟨rest', heq, hf', hstuck'⟩ := (longest_iff hd).mp h'
  obtain ⟨u, us, rfl, rfl⟩ := hf.prefix_of_stuck hd hf' hstuck heq
  obtain ⟨u', us', hlog, has⟩ := hf'.prefix_of_stuck hd hf hstuck' heq.symm
  have hu : u = [] := by
    have hlen := congrArg List.length hlog
    simp only [List.length_append] at hlen
    exact List.length_eq_zero_iff.mp (by omega)
  have hus : us = [] := by
    have hlen := congrArg List.length has
    simp only [List.length_append] at hlen
    exact List.length_eq_zero_iff.mp (by omega)
  simp [hu, hus]

-- ---------------------------------------------------------------------------
-- Cuts
-- ---------------------------------------------------------------------------

theorem frames_flatMap {f : α → List β} (h : ∀ a ∈ as, frame (f a) a) :
    Frames frame (as.flatMap f) as := by
  induction as with
  | nil => exact .nil
  | cons a as ih =>
    simp only [List.forall_mem_cons] at h
    exact .cons h.1 (ih h.2)

/-- A cut through a concatenation leaves whole pieces and a proper prefix of
the next one. -/
theorem exists_cut (f : α → List β) (as : List α) (k : Nat) :
    ∃ m p, (as.flatMap f).take k = (as.take m).flatMap f ++ p ∧
      (p = [] ∨ ∃ a ∈ as, p <+: f a ∧ p ≠ f a) ∧
      ∀ i < as.length, i < m ↔ ((as.take (i + 1)).flatMap f).length ≤ k := by
  induction as generalizing k with
  | nil => exact ⟨0, [], by simp, .inl rfl, by simp⟩
  | cons a as ih =>
    by_cases hk : (f a).length ≤ k
    · obtain ⟨m, p, hcut, hp, hm⟩ := ih (k - (f a).length)
      refine ⟨m + 1, p, ?_, ?_, ?_⟩
      · rw [List.flatMap_cons, List.take_append, List.take_of_length_le hk, hcut]
        simp
      · rcases hp with hp | ⟨b, hb, hp⟩
        · exact .inl hp
        · exact .inr ⟨b, List.mem_cons_of_mem _ hb, hp⟩
      · intro i hi
        cases i with
        | zero => simpa using hk
        | succ i =>
          have hi' := hm i (by simpa using hi)
          simp only [List.take_succ_cons, List.flatMap_cons, List.length_append] at hi' ⊢
          omega
    · refine ⟨0, (f a).take k, ?_, .inr ⟨a, by simp, List.take_prefix _ _, ?_⟩, ?_⟩
      · rw [List.flatMap_cons, List.take_append_of_le_length (Nat.le_of_not_le hk)]
        simp
      · intro heq
        have hlen := congrArg List.length heq
        simp only [List.length_take] at hlen
        omega
      · intro i _
        simp only [List.take_succ_cons, List.flatMap_cons, List.length_append]
        omega

end FramedLog
