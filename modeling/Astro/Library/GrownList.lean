import Mathlib.Data.List.Induction
import Mathlib.Data.List.Nodup
import Mathlib.Tactic.Common

/-!
# Lists grown at their end

`Grown P xs` says that `xs` was built by appending elements, each of which
was admitted by `P` after the elements already there. A run that only ever
appends leaves a grown list, whatever the elements are admitted for.

`Linked` is the case where an element names the hash of the one before it.
Without a collision, the hash of the last element of a linked list determines
the list (`Linked.eq_of_last`).
-/

namespace GrownList

variable {α β γ : Type}

inductive Grown (P : List β → β → Prop) : List β → Prop
  | nil : Grown P []
  | snoc : Grown P xs → P xs x → Grown P (xs ++ [x])

variable {P : List β → β → Prop}

theorem grown_snoc : Grown P (xs ++ [x]) ↔ Grown P xs ∧ P xs x := by
  constructor
  · intro h
    generalize hl : xs ++ [x] = l at h
    cases h with
    | nil => simp at hl
    | snoc h hx =>
      obtain ⟨rfl, hx'⟩ := List.append_inj' hl rfl
      cases hx'
      exact ⟨h, hx⟩
  · rintro ⟨h, hx⟩
    exact h.snoc hx

theorem Grown.mono {Q : List β → β → Prop} (h : Grown P xs) (hq : ∀ ys y, P ys y → Q ys y) :
    Grown Q xs := by
  induction h with
  | nil => exact .nil
  | snoc _ hx ih => exact ih.snoc (hq _ _ hx)

theorem Grown.map {Q : List γ → γ → Prop} (f : β → γ) (h : Grown P xs)
    (hq : ∀ ys y, P ys y → Q (ys.map f) (f y)) : Grown Q (xs.map f) := by
  induction h with
  | nil => exact .nil
  | snoc _ hx ih =>
    rw [List.map_append]
    exact ih.snoc (hq _ _ hx)

theorem Grown.of_append (h : Grown P (xs ++ ys)) : Grown P xs := by
  induction ys using List.reverseRecOn with
  | nil => simpa using h
  | append_singleton ys y ih =>
    rw [← List.append_assoc] at h
    exact ih (grown_snoc.mp h).1

theorem Grown.take (h : Grown P xs) (n : Nat) : Grown P (xs.take n) := by
  rw [← List.take_append_drop n xs] at h
  exact h.of_append

theorem Grown.of_split (h : Grown P (xs ++ x :: ys)) : P xs x := by
  rw [← List.singleton_append, ← List.append_assoc] at h
  exact (grown_snoc.mp h.of_append).2

/-- Every element was admitted after exactly the elements before it. -/
theorem grown_iff : Grown P xs ↔ ∀ before x after, xs = before ++ x :: after → P before x := by
  constructor
  · rintro h before x after rfl
    exact h.of_split
  · intro h
    induction xs using List.reverseRecOn with
    | nil => exact .nil
    | append_singleton xs x ih =>
      refine .snoc (ih ?_) (h xs x [] rfl)
      rintro before y after rfl
      exact h before y (after ++ [x]) (by simp)

theorem Grown.admitted {x : β} (h : Grown P xs) (hx : xs[i]? = some x) : P (xs.take i) x := by
  obtain ⟨hi, rfl⟩ := List.getElem?_eq_some_iff.mp hx
  rw [← List.take_append_drop i xs, List.drop_eq_getElem_cons hi] at h
  exact h.of_split

theorem getLast?_take_succ {xs : List β} {x : β} (hx : xs[i]? = some x) :
    (xs.take (i + 1)).getLast? = some x := by
  obtain ⟨hi, rfl⟩ := List.getElem?_eq_some_iff.mp hx
  rw [List.take_succ_eq_append_getElem hi, List.getLast?_concat]

-- ---------------------------------------------------------------------------
-- Hash links
-- ---------------------------------------------------------------------------

section Links

variable (hash prev : β → γ) (zero : γ)

/-- The link to write after a list: the hash of its last element. -/
def linkAfter (xs : List β) : γ := (xs.getLast?.map hash).getD zero

def Linked : List β → Prop := Grown fun before x => prev x = linkAfter hash zero before

variable {hash prev zero}

theorem linkAfter_inj (hx : ∀ x ∈ xs, hash x ≠ zero) (hy : ∀ y ∈ ys, hash y ≠ zero)
    (h : linkAfter hash zero xs = linkAfter hash zero ys) :
    xs.getLast?.map hash = ys.getLast?.map hash := by
  unfold linkAfter at h
  cases hl : xs.getLast? with
  | none =>
    cases hl' : ys.getLast? with
    | none => rfl
    | some y =>
      simp only [hl, hl', Option.map_none, Option.map_some, Option.getD_none,
        Option.getD_some] at h
      exact absurd h.symm (hy y (List.mem_of_getLast? hl'))
  | some x =>
    cases hl' : ys.getLast? with
    | none =>
      simp only [hl, hl', Option.map_none, Option.map_some, Option.getD_none,
        Option.getD_some] at h
      exact absurd h (hx x (List.mem_of_getLast? hl))
    | some y => simpa [hl, hl'] using h

theorem Linked.eq_of_last (hxs : Linked hash prev zero xs) (hys : Linked hash prev zero ys)
    (hinj : ∀ x ∈ xs, ∀ y ∈ ys, hash x = hash y → x = y)
    (hx : ∀ x ∈ xs, hash x ≠ zero) (hy : ∀ y ∈ ys, hash y ≠ zero)
    (h : xs.getLast?.map hash = ys.getLast?.map hash) : xs = ys := by
  unfold Linked at hxs
  induction hxs generalizing ys with
  | nil =>
    cases hl : ys.getLast? with
    | none => rw [List.getLast?_eq_none_iff.mp hl]
    | some y => simp [hl] at h
  | @snoc xs x _ hprev ih =>
    cases hys with
    | nil => simp at h
    | @snoc ys y hys hprev' =>
      simp only [List.getLast?_concat, Option.map_some, Option.some.injEq] at h
      have hxy : x = y := hinj x (by simp) y (by simp) h
      simp only [List.mem_append, List.mem_singleton] at hinj hx hy
      have hlink : linkAfter hash zero xs = linkAfter hash zero ys := by
        rw [← hprev, ← hprev', hxy]
      have hlast := linkAfter_inj (fun z hz => hx z (.inl hz)) (fun z hz => hy z (.inl hz)) hlink
      rw [ih hys (fun a ha b hb => hinj a (.inl ha) b (.inl hb)) (fun z hz => hx z (.inl hz))
        (fun z hz => hy z (.inl hz)) hlast, hxy]

theorem Linked.nodup (hxs : Linked hash prev zero xs)
    (hinj : ∀ x ∈ xs, ∀ y ∈ xs, hash x = hash y → x = y) (hx : ∀ x ∈ xs, hash x ≠ zero) :
    (xs.map hash).Nodup := by
  refine List.nodup_iff_injective_getElem.mpr fun ⟨i, hi⟩ ⟨j, hj⟩ hij => ?_
  simp only [List.length_map] at hi hj
  simp only [List.getElem_map] at hij
  -- The two prefixes that end in the equal hashes are equal.
  have hmem {n : Nat} : ∀ x ∈ xs.take n, x ∈ xs := fun x h => List.mem_of_mem_take h
  have heq : xs.take (i + 1) = xs.take (j + 1) := by
    refine Linked.eq_of_last (hxs.take (i + 1)) (hxs.take (j + 1))
      (fun x hx y hy => hinj x (hmem x hx) y (hmem y hy)) (fun x h => hx x (hmem x h))
      (fun x h => hx x (hmem x h)) ?_
    rw [getLast?_take_succ (List.getElem?_eq_getElem hi),
      getLast?_take_succ (List.getElem?_eq_getElem hj), Option.map_some, Option.map_some, hij]
  have hlen := congrArg List.length heq
  simp only [List.length_take] at hlen
  simp only [Fin.mk.injEq]
  omega

end Links

end GrownList
