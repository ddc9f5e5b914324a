import Mathlib.Algebra.Group.Nat.Defs
import Mathlib.Data.List.Basic
import Mathlib.Data.Nat.Log
import Mathlib.Data.Set.Function

/-!
# Combining a list in pairs, level by level

`pairUp f` combines neighbours and combines the last element of an odd list
with itself; `collapse f` repeats it until one element is left. `levels` are
the lists on the way, `queries` the pairs that `f` was applied to.

With `Tree.node` in place of `f`, `collapse` builds the tree that a run of it
computes (`eval_treeOf`): a perfect binary tree whose leaves, read from left
to right, are the list with the copies made at odd levels (`expand`). Where
`f` is injective on the pairs of two such runs, equal results mean equal
trees (`Tree.eq_of_eval_eq`), and paths that turn the same way are equal
(`climb_unique`). `splitEval` computes the same from the top.
-/

namespace PairTree

variable {α β : Type}

def pairUp (f : α → α → α) : List α → List α
  | [] => []
  | [a] => [f a a]
  | a :: b :: l => f a b :: pairUp f l

/-- The pairs that `pairUp` combines. -/
def pairs : List α → List (α × α)
  | [] => []
  | [a] => [(a, a)]
  | a :: b :: l => (a, b) :: pairs l

variable {f : α → α → α} {l l' : List α}

theorem pairUp_eq_map : pairUp f l = (pairs l).map fun p => f p.1 p.2 := by
  fun_induction pairUp f l with
  | case1 => rfl
  | case2 => rfl
  | case3 a b l ih => simp [pairs, ih]

@[simp] theorem length_pairUp : (pairUp f l).length = (l.length + 1) / 2 := by
  fun_induction pairUp f l with
  | case1 => simp
  | case2 => simp
  | case3 a b l ih => simp [ih]; omega

theorem mem_of_mem_pairs {p : α × α} (h : p ∈ pairs l) : p.1 ∈ l ∧ p.2 ∈ l := by
  fun_induction pairs l with
  | case1 => simp at h
  | case2 a => simp_all
  | case3 a b l ih =>
    rcases List.mem_cons.mp h with rfl | h
    · simp
    · simp [ih h]

theorem exists_mem_pairs (h : a ∈ l) : ∃ p ∈ pairs l, a = p.1 ∨ a = p.2 := by
  fun_induction pairs l with
  | case1 => cases h
  | case2 b => exact ⟨(b, b), by simp, .inl (List.mem_singleton.mp h)⟩
  | case3 b c l ih =>
    simp only [List.mem_cons] at h
    rcases h with rfl | rfl | h
    · exact ⟨_, List.mem_cons_self, .inl rfl⟩
    · exact ⟨_, List.mem_cons_self, .inr rfl⟩
    · obtain ⟨p, hp, ha⟩ := ih h
      exact ⟨p, List.mem_cons_of_mem _ hp, ha⟩

theorem pairs_map (g : α → β) : pairs (l.map g) = (pairs l).map (Prod.map g g) := by
  fun_induction pairs l with
  | case1 => rfl
  | case2 => rfl
  | case3 a b l ih => simp [pairs, ih]

theorem pairUp_map {f' : β → β → β} {g : α → β}
    (hg : ∀ a b, g (f a b) = f' (g a) (g b)) : (pairUp f l).map g = pairUp f' (l.map g) := by
  fun_induction pairUp f l with
  | case1 => rfl
  | case2 a => simp [pairUp, hg]
  | case3 a b l ih => simp [pairUp, hg, ih]

theorem pairUp_inj (hf : ∀ a b c d, f a b = f c d → a = c ∧ b = d)
    (hl : l.length = l'.length) (h : pairUp f l = pairUp f l') : l = l' := by
  fun_induction pairUp f l generalizing l' with
  | case1 => simpa using hl.symm
  | case2 a =>
    obtain ⟨b, rfl⟩ := List.length_eq_one_iff.mp hl.symm
    simp only [pairUp, List.cons.injEq, and_true] at h
    rw [(hf _ _ _ _ h).1]
  | case3 a b l ih =>
    match l' with
    | [] => simp at hl
    | [c] => simp at hl
    | c :: d :: l' =>
      simp only [pairUp, List.cons.injEq] at h
      obtain ⟨rfl, rfl⟩ := hf _ _ _ _ h.1
      rw [ih (by simpa using hl) h.2]

theorem getElem?_pairs (hi : 2 * i < l.length) : (pairs l)[i]? =
    some (l[2 * i], if h : 2 * i + 1 < l.length then l[2 * i + 1] else l[2 * i]) := by
  fun_induction pairs l generalizing i with
  | case1 => simp at hi
  | case2 a =>
    obtain rfl : i = 0 := by simp at hi; omega
    simp
  | case3 a b l ih =>
    cases i with
    | zero => simp
    | succ i =>
      have hi' : 2 * i < l.length := by simp at hi; omega
      have hlt : 2 * i + 2 < l.length + 1 ↔ 2 * i + 1 < l.length := by omega
      simp only [List.getElem?_cons_succ, ih hi', Nat.mul_succ, List.length_cons,
        List.getElem_cons_succ, Nat.add_lt_add_iff_right, hlt]

theorem pairUp_take (l : List α) (k : Nat) : pairUp f (l.take (2 * k)) = (pairUp f l).take k := by
  fun_induction pairUp f l generalizing k with
  | case1 => simp [pairUp]
  | case2 a => cases k <;> simp [pairUp, Nat.mul_succ]
  | case3 a b l ih => cases k <;> simp [pairUp, Nat.mul_succ, ih]

theorem pairUp_drop (l : List α) (k : Nat) : pairUp f (l.drop (2 * k)) = (pairUp f l).drop k := by
  fun_induction pairUp f l generalizing k with
  | case1 => simp [pairUp]
  | case2 a => cases k <;> simp [pairUp, Nat.mul_succ]
  | case3 a b l ih => cases k <;> simp [pairUp, Nat.mul_succ, ih]

-- ---------------------------------------------------------------------------
-- The loop
-- ---------------------------------------------------------------------------

/-- `while (size > 1) level = pairUp(level)`. -/
def collapse (f : α → α → α) (l : List α) : List α :=
  if 1 < l.length then collapse f (pairUp f l) else l
termination_by l.length
decreasing_by rw [length_pairUp]; omega

def queries (f : α → α → α) (l : List α) : List (α × α) :=
  if 1 < l.length then pairs l ++ queries f (pairUp f l) else []
termination_by l.length
decreasing_by rw [length_pairUp]; omega

def level (f : α → α → α) (l : List α) (k : Nat) : List α := (pairUp f)^[k] l

@[simp] theorem level_zero : level f l 0 = l := rfl

theorem level_succ : level f l (k + 1) = level f (pairUp f l) k := rfl

theorem level_succ' : level f l (k + 1) = pairUp f (level f l k) :=
  Function.iterate_succ_apply' _ _ _

/-- Halving the position keeps up with halving the level. -/
theorem shiftRight_lt_level (h : i < l.length) (k : Nat) : i >>> k < (level f l k).length := by
  induction k generalizing i l with
  | zero => exact h
  | succ k ih =>
    rw [level_succ, Nat.shiftRight_succ_inside]
    refine ih ?_
    rw [length_pairUp]
    omega

theorem clog_pairUp (h : 1 < l.length) :
    Nat.clog 2 l.length = Nat.clog 2 (pairUp f l).length + 1 := by
  rw [Nat.clog_of_one_lt (by decide) h, length_pairUp]
  rfl

theorem collapse_eq_level : collapse f l = level f l (Nat.clog 2 l.length) := by
  fun_induction collapse f l with
  | case1 l h ih => rw [ih, clog_pairUp (f := f) h, level_succ]
  | case2 l h => rw [Nat.clog_of_right_le_one (by omega), level_zero]

theorem length_collapse (h : 0 < l.length) : (collapse f l).length = 1 := by
  fun_induction collapse f l with
  | case1 l hl ih => exact ih (by rw [length_pairUp]; omega)
  | case2 l hl => omega

theorem collapse_eq_singleton (h : l ≠ []) : ∃ a, collapse f l = [a] :=
  List.length_eq_one_iff.mp (length_collapse (List.length_pos_iff.mpr h))

theorem collapse_map {f' : β → β → β} {g : α → β}
    (hg : ∀ a b, g (f a b) = f' (g a) (g b)) : (collapse f l).map g = collapse f' (l.map g) := by
  fun_induction collapse f l with
  | case1 l h ih => rw [ih, pairUp_map hg, collapse.eq_def f' (l.map g), if_pos (by simpa using h)]
  | case2 l h => rw [collapse.eq_def, if_neg (by simpa using h)]

theorem collapse_inj (hf : ∀ a b c d, f a b = f c d → a = c ∧ b = d)
    (hl : l.length = l'.length) (h : collapse f l = collapse f l') : l = l' := by
  fun_induction collapse f l generalizing l' with
  | case1 l hlt ih =>
    rw [collapse.eq_def f l', if_pos (hl ▸ hlt)] at h
    exact pairUp_inj hf hl (ih (by simp [hl]) h)
  | case2 l hlt => rwa [collapse.eq_def f l', if_neg (hl ▸ hlt)] at h

theorem pairs_level_subset (hk : k < Nat.clog 2 l.length) :
    pairs (level f l k) ⊆ queries f l := by
  induction k generalizing l with
  | zero =>
    have hl : 1 < l.length := by simpa using Nat.pow_lt_of_lt_clog hk
    rw [queries, if_pos hl]
    exact List.subset_append_left _ _
  | succ k ih =>
    have hl : 1 < l.length := by
      by_contra hle
      rw [Nat.clog_of_right_le_one (by omega)] at hk
      omega
    rw [clog_pairUp (f := f) hl] at hk
    rw [queries, if_pos hl]
    exact List.subset_append_of_subset_right _ (ih (by omega))

theorem pairUp_congr {g : α → α → α} (h : ∀ p ∈ pairs l, f p.1 p.2 = g p.1 p.2) :
    pairUp f l = pairUp g l := by
  rw [pairUp_eq_map, pairUp_eq_map]
  exact List.map_congr_left h

theorem collapse_congr {g : α → α → α} (h : ∀ p ∈ queries f l, f p.1 p.2 = g p.1 p.2) :
    collapse f l = collapse g l := by
  fun_induction collapse f l with
  | case1 l hl ih =>
    rw [queries, if_pos hl] at h
    have hup : pairUp f l = pairUp g l := pairUp_congr fun p hp => h p (List.mem_append_left _ hp)
    rw [ih fun p hp => h p (List.mem_append_right _ hp), collapse.eq_def g l, if_pos hl, hup]
  | case2 l hl => rw [collapse, if_neg hl]

-- ---------------------------------------------------------------------------
-- Paths
-- ---------------------------------------------------------------------------

/-- Combine `x` with one sibling after the other; the flag says that the
sibling stands on the left. -/
def climb (f : α → α → α) : α → List (α × Bool) → α
  | x, [] => x
  | x, (s, left) :: steps => climb f (if left then f s x else f x s) steps

def climbPairs (f : α → α → α) : α → List (α × Bool) → List (α × α)
  | _, [] => []
  | x, (s, left) :: steps =>
    (if left then (s, x) else (x, s)) :: climbPairs f (if left then f s x else f x s) steps

theorem climb_append : climb f x (steps ++ rest) = climb f (climb f x steps) rest := by
  induction steps generalizing x with
  | nil => rfl
  | cons step steps ih => exact ih

theorem climbPairs_append : climbPairs f x (steps ++ rest) =
    climbPairs f x steps ++ climbPairs f (climb f x steps) rest := by
  induction steps generalizing x with
  | nil => rfl
  | cons step steps ih => simp [climbPairs, climb, ih]

theorem climb_congr {g : α → α → α} (h : ∀ p ∈ climbPairs f x steps, f p.1 p.2 = g p.1 p.2) :
    climb f x steps = climb g x steps := by
  induction steps generalizing x with
  | nil => rfl
  | cons step steps ih =>
    obtain ⟨s, left⟩ := step
    simp only [climbPairs, List.mem_cons, forall_eq_or_imp] at h
    have hstep : (if left then f s x else f x s) = if left then g s x else g x s := by
      cases left
      · exact h.1
      · exact h.1
    rw [climb, climb, ← hstep]
    exact ih h.2

/-- Paths that turn the same way at every step and end in one element are the
same. -/
theorem climb_unique {S : Set (α × α)} {y : α} {steps steps' : List (α × Bool)}
    (hinj : S.InjOn fun p => f p.1 p.2) (hpath : ∀ p ∈ climbPairs f x steps, p ∈ S)
    (hpath' : ∀ p ∈ climbPairs f y steps', p ∈ S)
    (hflags : steps.map Prod.snd = steps'.map Prod.snd)
    (h : climb f x steps = climb f y steps') : x = y ∧ steps = steps' := by
  induction steps generalizing x y steps' with
  | nil =>
    obtain rfl : steps' = [] := List.map_eq_nil_iff.mp hflags.symm
    exact ⟨h, rfl⟩
  | cons step steps ih =>
    cases steps' with
    | nil => simp at hflags
    | cons step' steps' =>
      obtain ⟨s, left⟩ := step
      obtain ⟨s', left'⟩ := step'
      obtain ⟨rfl, htail⟩ := List.cons.inj hflags
      simp only [climbPairs, List.mem_cons, forall_eq_or_imp] at hpath hpath'
      obtain ⟨hup, rfl⟩ := ih hpath.2 hpath'.2 htail h
      cases left
      · obtain ⟨rfl, rfl⟩ := Prod.mk.inj (hinj hpath.1 hpath'.1 hup)
        exact ⟨rfl, rfl⟩
      · obtain ⟨rfl, rfl⟩ := Prod.mk.inj (hinj hpath.1 hpath'.1 hup)
        exact ⟨rfl, rfl⟩

/-- A path that ends on a level started as many levels below it. -/
theorem mem_level_of_climb {S : Set (α × α)}
    (hinj : S.InjOn fun p => f p.1 p.2) (hpath : ∀ p ∈ climbPairs f x steps, p ∈ S)
    (hlevels : ∀ j < k + steps.length, ∀ p ∈ pairs (level f l j), p ∈ S)
    (h : climb f x steps ∈ level f l (k + steps.length)) : x ∈ level f l k := by
  induction steps generalizing x k with
  | nil => simpa [climb] using h
  | cons step steps ih =>
    obtain ⟨s, left⟩ := step
    simp only [climbPairs, List.mem_cons, forall_eq_or_imp] at hpath
    simp only [List.length_cons] at hlevels h
    have harg : k + (steps.length + 1) = k + 1 + steps.length := by omega
    rw [harg] at hlevels h
    have hup := ih hpath.2 hlevels h
    rw [level_succ', pairUp_eq_map] at hup
    obtain ⟨p, hp, heq⟩ := List.mem_map.mp hup
    have hmem := mem_of_mem_pairs hp
    have hpS := hlevels k (by omega) p hp
    cases left
    · have hpx : p = (x, s) := hinj hpS hpath.1 heq
      rw [hpx] at hmem
      exact hmem.1
    · have hpx : p = (s, x) := hinj hpS hpath.1 heq
      rw [hpx] at hmem
      exact hmem.2

-- ---------------------------------------------------------------------------
-- The tree of a run
-- ---------------------------------------------------------------------------

inductive Tree (α : Type)
  | leaf (a : α)
  | node (left right : Tree α)

namespace Tree

def eval (f : α → α → α) : Tree α → α
  | leaf a => a
  | node l r => f (l.eval f) (r.eval f)

def map (g : α → β) : Tree α → Tree β
  | leaf a => leaf (g a)
  | node l r => node (l.map g) (r.map g)

def leaves : Tree α → List α
  | leaf a => [a]
  | node l r => l.leaves ++ r.leaves

def Perfect : Nat → Tree α → Prop
  | 0, leaf _ => True
  | d + 1, node l r => l.Perfect d ∧ r.Perfect d
  | _, _ => False

def pairs (f : α → α → α) : Tree α → List (α × α)
  | leaf _ => []
  | node l r => (l.eval f, r.eval f) :: (l.pairs f ++ r.pairs f)

theorem leaves_map (g : α → β) (t : Tree α) : (t.map g).leaves = t.leaves.map g := by
  induction t with
  | leaf a => rfl
  | node l r ihl ihr => simp [map, leaves, ihl, ihr]

theorem eq_of_eval_eq {S : Set (α × α)} (hinj : S.InjOn fun p => f p.1 p.2)
    {t t' : Tree α} (ht : t.Perfect d) (ht' : t'.Perfect d) (hs : ∀ p ∈ t.pairs f, p ∈ S)
    (hs' : ∀ p ∈ t'.pairs f, p ∈ S) (h : t.eval f = t'.eval f) : t = t' := by
  induction t generalizing d t' with
  | leaf a =>
    cases d <;> cases t' <;> simp_all [Perfect, eval]
  | node l r ihl ihr =>
    cases d with
    | zero => simp [Perfect] at ht
    | succ d =>
      cases t' with
      | leaf b => simp [Perfect] at ht'
      | node l' r' =>
        simp only [pairs, List.mem_cons, List.mem_append] at hs hs'
        have hp : (l.eval f, r.eval f) = (l'.eval f, r'.eval f) :=
          hinj (hs _ (.inl rfl)) (hs' _ (.inl rfl)) h
        obtain ⟨hl, hr⟩ := Prod.mk.inj hp
        rw [ihl ht.1 ht'.1 (fun p hp => hs p (.inr (.inl hp)))
            (fun p hp => hs' p (.inr (.inl hp))) hl,
          ihr ht.2 ht'.2 (fun p hp => hs p (.inr (.inr hp)))
            (fun p hp => hs' p (.inr (.inr hp))) hr]

theorem length_leaves {t : Tree α} (h : t.Perfect d) : t.leaves.length = 2 ^ d := by
  induction t generalizing d with
  | leaf a => cases d <;> simp_all [Perfect, leaves]
  | node l r ihl ihr =>
    cases d with
    | zero => simp [Perfect] at h
    | succ d =>
      rw [leaves, List.length_append, ihl h.1, ihr h.2]
      omega

theorem eq_of_leaves_eq {t t' : Tree α} (ht : t.Perfect d) (ht' : t'.Perfect d)
    (h : t.leaves = t'.leaves) : t = t' := by
  induction t generalizing d t' with
  | leaf a =>
    cases d <;> cases t' <;> simp_all [Perfect, leaves]
  | node l r ihl ihr =>
    cases d with
    | zero => simp [Perfect] at ht
    | succ d =>
      cases t' with
      | leaf b => simp [Perfect] at ht'
      | node l' r' =>
        have hlen : l.leaves.length = l'.leaves.length := by
          rw [length_leaves ht.1, length_leaves ht'.1]
        obtain ⟨hl, hr⟩ := List.append_inj h hlen
        rw [ihl ht.1 ht'.1 hl, ihr ht.2 ht'.2 hr]

/-- Trees of different depth and equal value: a leaf of the lower one is a
combined pair of the higher one. -/
theorem leaf_of_eval_eq {S : Set (α × α)} (hinj : S.InjOn fun p => f p.1 p.2)
    {t t' : Tree α} (ht : t.Perfect d) (ht' : t'.Perfect (d + k + 1))
    (hs : ∀ p ∈ t.pairs f, p ∈ S) (hs' : ∀ p ∈ t'.pairs f, p ∈ S) (h : t.eval f = t'.eval f) :
    ∃ a ∈ t.leaves, ∃ p ∈ t'.pairs f, a = f p.1 p.2 := by
  induction t generalizing d t' with
  | leaf a =>
    cases t' with
    | leaf b => simp [Perfect] at ht'
    | node l' r' => exact ⟨a, by simp [leaves], _, List.mem_cons_self, h⟩
  | node l r ihl ihr =>
    cases d with
    | zero => simp [Perfect] at ht
    | succ d =>
      cases t' with
      | leaf b => simp [Perfect] at ht'
      | node l' r' =>
        simp only [pairs, List.mem_cons, List.mem_append] at hs hs'
        have hp : (l.eval f, r.eval f) = (l'.eval f, r'.eval f) :=
          hinj (hs _ (.inl rfl)) (hs' _ (.inl rfl)) h
        have hd : d + 1 + k = d + k + 1 := by omega
        simp only [Perfect, hd] at ht'
        obtain ⟨a, ha, p, hp, heq⟩ := ihl ht.1 ht'.1 (fun p hp => hs p (.inr (.inl hp)))
          (fun p hp => hs' p (.inr (.inl hp))) (Prod.mk.inj hp).1
        exact ⟨a, by simp [leaves, ha], p, by simp [pairs, hp], heq⟩

end Tree

/-- The tree of a run that combines `l` at least once, as a list of one
element (of none for the empty list). -/
def treeOf (l : List α) : List (Tree α) := collapse .node (pairUp .node (l.map .leaf))

/-- The number of levels of `treeOf` above a list of length `n`. -/
def height (n : Nat) : Nat := Nat.clog 2 ((n + 1) / 2) + 1

/-- `l` with every element repeated as often as its leaf is reached by a path
of the tree. -/
def expand (l : List α) : List α := (treeOf l).flatMap Tree.leaves

theorem map_eval_leaf (f : α → α → α) (l : List α) : (l.map Tree.leaf).map (Tree.eval f) = l := by
  rw [List.map_map]
  exact List.map_id l

theorem eval_treeOf (f : α → α → α) (l : List α) :
    (treeOf l).map (Tree.eval f) = collapse f (pairUp f l) := by
  rw [treeOf, collapse_map fun _ _ => rfl, pairUp_map fun _ _ => rfl, map_eval_leaf]

theorem treeOf_eq_singleton (h : l ≠ []) : ∃ t, treeOf l = [t] := by
  refine collapse_eq_singleton (List.length_pos_iff.mp ?_)
  have := List.length_pos_iff.mpr h
  simp
  omega

theorem perfect_pairUp {ts : List (Tree α)} (h : ∀ t ∈ ts, t.Perfect d) :
    ∀ t ∈ pairUp .node ts, t.Perfect (d + 1) := by
  intro t ht
  rw [pairUp_eq_map] at ht
  obtain ⟨p, hp, rfl⟩ := List.mem_map.mp ht
  exact ⟨h _ (mem_of_mem_pairs hp).1, h _ (mem_of_mem_pairs hp).2⟩

theorem perfect_collapse {ts : List (Tree α)} (h : ∀ t ∈ ts, t.Perfect d) :
    ∀ t ∈ collapse .node ts, t.Perfect (d + Nat.clog 2 ts.length) := by
  fun_induction collapse Tree.node ts generalizing d with
  | case1 ts hl ih =>
    rw [clog_pairUp (f := Tree.node) hl, Nat.add_comm _ 1, ← Nat.add_assoc]
    exact ih (perfect_pairUp h)
  | case2 ts hl => rwa [Nat.clog_of_right_le_one (by omega), Nat.add_zero]

theorem perfect_treeOf (ht : t ∈ treeOf l) : t.Perfect (height l.length) := by
  have hleaf : ∀ t ∈ l.map Tree.leaf, t.Perfect 0 := by
    intro t ht
    obtain ⟨a, -, rfl⟩ := List.mem_map.mp ht
    trivial
  have h := perfect_collapse (perfect_pairUp hleaf) t ht
  rw [length_pairUp, List.length_map] at h
  rwa [height, Nat.add_comm]

theorem pairs_collapse {ts : List (Tree α)} {t : Tree α} {p : α × α}
    (ht : t ∈ collapse .node ts) (hp : p ∈ t.pairs f) :
    (∃ t₀ ∈ ts, p ∈ t₀.pairs f) ∨ p ∈ queries f (ts.map (Tree.eval f)) := by
  fun_induction collapse Tree.node ts with
  | case1 ts hl ih =>
    rw [queries, if_pos (by simpa using hl)]
    rcases ih ht with ⟨t₁, ht₁, hp⟩ | hq
    · rw [pairUp_eq_map] at ht₁
      obtain ⟨q, hq, rfl⟩ := List.mem_map.mp ht₁
      simp only [Tree.pairs, List.mem_cons, List.mem_append] at hp
      rcases hp with rfl | hp | hp
      · refine .inr (List.mem_append_left _ ?_)
        rw [pairs_map]
        exact List.mem_map.mpr ⟨q, hq, rfl⟩
      · exact .inl ⟨_, (mem_of_mem_pairs hq).1, hp⟩
      · exact .inl ⟨_, (mem_of_mem_pairs hq).2, hp⟩
    · rw [pairUp_map fun _ _ => rfl] at hq
      exact .inr (List.mem_append_right _ hq)
  | case2 ts hl => exact .inl ⟨t, ht, hp⟩

theorem pairs_treeOf {t : Tree α} {p : α × α} (ht : t ∈ treeOf l) (hp : p ∈ t.pairs f) :
    p ∈ pairs l ++ queries f (pairUp f l) := by
  rcases pairs_collapse ht hp with ⟨t₁, ht₁, hp⟩ | hq
  · rw [pairUp_eq_map, pairs_map, List.map_map] at ht₁
    obtain ⟨q, hq, rfl⟩ := List.mem_map.mp ht₁
    simp only [Tree.pairs, Function.comp, Prod.map, Tree.eval, List.append_nil,
      List.mem_singleton] at hp
    exact List.mem_append_left _ (hp ▸ hq)
  · rw [pairUp_map fun _ _ => rfl, map_eval_leaf] at hq
    exact List.mem_append_right _ hq

theorem treeOf_inj (hl : l.length = l'.length) (h : treeOf l = treeOf l') : l = l' := by
  have hnode (a b c d : Tree α) : Tree.node a b = .node c d → a = c ∧ b = d := Tree.node.inj
  have hup := collapse_inj hnode (by simp [hl]) h
  have hmap := pairUp_inj hnode (by simp [hl]) hup
  exact List.map_injective_iff.mpr (fun _ _ => Tree.leaf.inj) hmap

theorem expand_map (g : α → β) (l : List α) : expand (l.map g) = (expand l).map g := by
  have h : treeOf (l.map g) = (treeOf l).map (Tree.map g) := by
    have hnode (a b : Tree α) : (Tree.node a b).map g = .node (a.map g) (b.map g) := rfl
    rw [treeOf, treeOf, collapse_map hnode, pairUp_map hnode, List.map_map, List.map_map]
    rfl
  rw [expand, h, List.flatMap_map, expand, List.map_flatMap]
  simp only [Tree.leaves_map]

theorem leaves_pairUp {ts : List (Tree α)} {t : Tree α} {a : α} (ht : t ∈ pairUp .node ts)
    (ha : a ∈ t.leaves) : ∃ t₀ ∈ ts, a ∈ t₀.leaves := by
  rw [pairUp_eq_map] at ht
  obtain ⟨q, hq, rfl⟩ := List.mem_map.mp ht
  rcases List.mem_append.mp ha with ha | ha
  · exact ⟨_, (mem_of_mem_pairs hq).1, ha⟩
  · exact ⟨_, (mem_of_mem_pairs hq).2, ha⟩

theorem leaves_collapse {ts : List (Tree α)} {t : Tree α} {a : α} (ht : t ∈ collapse .node ts)
    (ha : a ∈ t.leaves) : ∃ t₀ ∈ ts, a ∈ t₀.leaves := by
  fun_induction collapse Tree.node ts with
  | case1 ts hl ih =>
    obtain ⟨t₁, ht₁, ha⟩ := ih ht
    exact leaves_pairUp ht₁ ha
  | case2 ts hl => exact ⟨t, ht, ha⟩

theorem mem_of_mem_leaves {t : Tree α} {a : α} (ht : t ∈ treeOf l) (ha : a ∈ t.leaves) :
    a ∈ l := by
  obtain ⟨t₁, ht₁, ha⟩ := leaves_collapse ht ha
  obtain ⟨t₀, ht₀, ha⟩ := leaves_pairUp ht₁ ha
  obtain ⟨b, hb, rfl⟩ := List.mem_map.mp ht₀
  exact List.mem_singleton.mp ha ▸ hb

theorem length_expand (h : l ≠ []) : (expand l).length = 2 ^ height l.length := by
  obtain ⟨t, ht⟩ := treeOf_eq_singleton h
  have hperfect : t.Perfect (height l.length) := perfect_treeOf (by simp [ht])
  rw [expand, ht, List.flatMap_singleton, Tree.length_leaves hperfect]

theorem treeOf_eq_of_expand (hl : l ≠ []) (hl' : l' ≠ [])
    (hheight : height l.length = height l'.length) (h : expand l = expand l') :
    treeOf l = treeOf l' := by
  obtain ⟨t, ht⟩ := treeOf_eq_singleton hl
  obtain ⟨t', ht'⟩ := treeOf_eq_singleton hl'
  have hperfect : t.Perfect (height l.length) := perfect_treeOf (by simp [ht])
  have hperfect' : t'.Perfect (height l'.length) := perfect_treeOf (by simp [ht'])
  rw [expand, expand, ht, ht', List.flatMap_singleton, List.flatMap_singleton] at h
  rw [ht, ht', Tree.eq_of_leaves_eq hperfect (hheight ▸ hperfect') h]

theorem mem_of_mem_expand {l : List α} (h : a ∈ expand l) : a ∈ l := by
  obtain ⟨t, ht, ha⟩ := List.mem_flatMap.mp h
  exact mem_of_mem_leaves ht ha

theorem mem_pairUp_leaves {ts : List (Tree α)} {t : Tree α} (ht : t ∈ ts) (ha : a ∈ t.leaves) :
    ∃ t' ∈ pairUp .node ts, a ∈ t'.leaves := by
  obtain ⟨p, hp, hside⟩ := exists_mem_pairs ht
  rw [pairUp_eq_map]
  refine ⟨_, List.mem_map_of_mem hp, List.mem_append.mpr ?_⟩
  rcases hside with rfl | rfl
  · exact .inl ha
  · exact .inr ha

theorem mem_expand_of_mem {l : List α} (h : a ∈ l) : a ∈ expand l := by
  have hcollapse {ts : List (Tree α)} {t : Tree α} (ht : t ∈ ts) (ha : a ∈ t.leaves) :
      ∃ t' ∈ collapse .node ts, a ∈ t'.leaves := by
    fun_induction collapse Tree.node ts generalizing t with
    | case1 ts hl ih =>
      obtain ⟨t', ht', ha'⟩ := mem_pairUp_leaves ht ha
      exact ih ht' ha'
    | case2 ts hl => exact ⟨t, ht, ha⟩
  obtain ⟨t, ht, ha⟩ := mem_pairUp_leaves (List.mem_map_of_mem (f := Tree.leaf) h)
    (List.mem_singleton_self a)
  obtain ⟨t', ht', ha'⟩ := hcollapse ht ha
  exact List.mem_flatMap.mpr ⟨t', ht', ha'⟩

theorem expand_eq_nil {l : List α} : expand l = [] ↔ l = [] := by
  constructor
  · intro h
    by_contra hne
    have hlen := length_expand hne
    rw [h] at hlen
    exact absurd hlen.symm (by simp)
  · rintro rfl
    simp [expand, treeOf, pairUp, collapse]

/-- Lists with the same repetitions have the same tree. -/
theorem treeOf_eq_of_expand_eq (hl : l ≠ []) (hl' : l' ≠ []) (h : expand l = expand l') :
    treeOf l = treeOf l' := by
  refine treeOf_eq_of_expand hl hl' ?_ h
  have hlen := congrArg List.length h
  rw [length_expand hl, length_expand hl'] at hlen
  exact Nat.pow_right_injective (Nat.le_refl 2) hlen

-- ---------------------------------------------------------------------------
-- From the top
-- ---------------------------------------------------------------------------

/-- What is computed of at most `2 ^ d` elements by splitting them at `2 ^ (d - 1)`;
a half without elements is the other one again. The default is for no
elements at all. -/
def splitEval (f : α → α → α) (default : α) : Nat → List α → α
  | 0, l => l.headD default
  | d + 1, l =>
    if l.length ≤ 2 ^ d then f (splitEval f default d l) (splitEval f default d l)
    else f (splitEval f default d (l.take (2 ^ d))) (splitEval f default d (l.drop (2 ^ d)))

/-- Splitting from the top gets one level lower by combining at the bottom. -/
theorem splitEval_pairUp {default : α} (hl : l ≠ []) (hd : l.length ≤ 2 ^ (d + 1)) :
    splitEval f default (d + 1) l = splitEval f default d (pairUp f l) := by
  induction d generalizing l with
  | zero =>
    match l with
    | [] => contradiction
    | [a] => simp [splitEval, pairUp]
    | [a, b] =>
      have htwo : ¬[a, b].length ≤ 2 ^ 0 := by simp
      exact if_neg htwo
    | a :: b :: c :: l => simp at hd
  | succ d ih =>
    have hpow : 2 ^ (d + 1) = 2 * 2 ^ d := Nat.pow_succ'
    rw [splitEval, splitEval.eq_def f default (d + 1) (pairUp f l)]
    by_cases hle : l.length ≤ 2 ^ (d + 1)
    · have hup : (pairUp f l).length ≤ 2 ^ d := by
        rw [length_pairUp]
        omega
      rw [if_pos hle]
      simp only [if_pos hup, ih hl hle]
    · have hup : ¬(pairUp f l).length ≤ 2 ^ d := by
        rw [length_pairUp]
        omega
      have hpos : 0 < 2 ^ (d + 1) := Nat.two_pow_pos _
      have htake : l.take (2 ^ (d + 1)) ≠ [] := by
        rw [ne_eq, ← List.length_eq_zero_iff, List.length_take]
        omega
      have hdrop : l.drop (2 ^ (d + 1)) ≠ [] := by
        rw [ne_eq, ← List.length_eq_zero_iff, List.length_drop]
        omega
      have hlast : (l.drop (2 ^ (d + 1))).length ≤ 2 ^ (d + 1) := by
        rw [List.length_drop, Nat.pow_succ] at *
        omega
      rw [if_neg hle, ih htake (List.length_take_le _ _), ih hdrop hlast]
      simp only [if_neg hup]
      rw [hpow, pairUp_take, pairUp_drop]

theorem level_eq_splitEval (default : α) (hl : l ≠ []) (hd : l.length ≤ 2 ^ d) :
    level f l d = [splitEval f default d l] := by
  induction d generalizing l with
  | zero =>
    obtain ⟨a, rfl⟩ : ∃ a, l = [a] := by
      refine List.length_eq_one_iff.mp ?_
      have := List.length_pos_iff.mpr hl
      omega
    rfl
  | succ d ih =>
    have hne : pairUp f l ≠ [] := by
      have hpos := List.length_pos_iff.mpr hl
      rw [ne_eq, ← List.length_eq_zero_iff, length_pairUp]
      omega
    have hup : (pairUp f l).length ≤ 2 ^ d := by
      rw [length_pairUp]
      rw [Nat.pow_succ] at hd
      omega
    rw [level_succ, ih hne hup, splitEval_pairUp hl hd]

end PairTree
