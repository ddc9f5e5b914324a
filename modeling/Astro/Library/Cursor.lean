import Mathlib.Tactic.Common

/-!
# Readers over a cursor

A cursor is a list and a position in it. A `Reader` moves the cursor and
either returns a value or fails; a failed reader leaves the cursor where it
stopped, so that a caller may go on with it.

`Consumes m xs a` says that `m` consumes exactly `xs` and returns `a`, whatever
stands before and after `xs`; it composes along `bind`, so that a decoder is
inverse to an encoder as soon as its fields are. `Took r xs r'` says what a
reader that led from `r` to `r'` has taken, for the other direction.
`Advances bad k m` says that `m` stays inside the list, never fails with `bad`,
and moves at least `k` places when it succeeds.
-/

structure Cursor (β : Type) where
  src : List β
  pos : Nat

namespace Cursor

variable {ε β α γ : Type}

def rest (r : Cursor β) : List β := r.src.drop r.pos

def InRange (r : Cursor β) : Prop := r.pos ≤ r.src.length

def skip (r : Cursor β) (n : Nat) : Cursor β := { r with pos := r.pos + n }

@[simp] theorem skip_src (r : Cursor β) : (r.skip n).src = r.src := rfl
@[simp] theorem skip_pos (r : Cursor β) : (r.skip n).pos = r.pos + n := rfl
@[simp] theorem skip_zero (r : Cursor β) : r.skip 0 = r := rfl

theorem skip_skip (r : Cursor β) : (r.skip n).skip m = r.skip (n + m) := by
  simp [skip, Nat.add_assoc]

theorem rest_skip (r : Cursor β) : (r.skip n).rest = r.rest.drop n := by
  simp [rest, skip, List.drop_drop]

theorem length_rest (r : Cursor β) : r.rest.length = r.src.length - r.pos := by
  simp [rest]

theorem rest_skip_append {r : Cursor β} (h : r.rest = xs ++ tail) :
    (r.skip xs.length).rest = tail := by
  simp [rest_skip, h]

theorem InRange.le_of_rest {r : Cursor β} (hr : r.InRange) (h : r.rest = xs ++ tail) :
    r.pos + xs.length ≤ r.src.length := by
  have hl := congrArg List.length h
  simp only [length_rest, List.length_append] at hl
  unfold InRange at hr
  omega

theorem InRange.skip {r : Cursor β} (hr : r.InRange) (h : r.rest = xs ++ tail) :
    (r.skip xs.length).InRange := hr.le_of_rest h

def Reader (ε β α : Type) := Cursor β → Except ε α × Cursor β

namespace Reader

def run (m : Reader ε β α) (r : Cursor β) : Except ε α × Cursor β := m r

instance : Monad (Reader ε β) where
  pure a := fun r => (.ok a, r)
  bind m f := fun r => match m.run r with
    | (.ok a, next) => (f a).run next
    | (.error e, next) => (.error e, next)

def fail (e : ε) : Reader ε β α := fun r => (.error e, r)

def get : Reader ε β (Cursor β) := fun r => (.ok r, r)

def lift (x : Except ε α) : Reader ε β α := fun r => (x, r)

@[simp] theorem run_pure (a : α) (r : Cursor β) : (pure a : Reader ε β α).run r = (.ok a, r) := rfl

@[simp] theorem run_fail (e : ε) (r : Cursor β) :
    (fail e : Reader ε β α).run r = (.error e, r) := rfl

@[simp] theorem run_get (r : Cursor β) : (get : Reader ε β _).run r = (.ok r, r) := rfl

@[simp] theorem run_lift (x : Except ε α) (r : Cursor β) :
    (lift x : Reader ε β α).run r = (x, r) := rfl

theorem run_bind (m : Reader ε β α) (f : α → Reader ε β γ) (r : Cursor β) :
    (m >>= f).run r = match m.run r with
      | (.ok a, next) => (f a).run next
      | (.error e, next) => (.error e, next) := rfl

theorem bind_ok {m : Reader ε β α} {f : α → Reader ε β γ} :
    (m >>= f).run r = (.ok c, r'') ↔
      ∃ a r', m.run r = (.ok a, r') ∧ (f a).run r' = (.ok c, r'') := by
  rw [run_bind]
  rcases h : m.run r with ⟨_ | a, r'⟩ <;> simp

def next (bad : ε) : Reader ε β β := fun r =>
  match r.src[r.pos]? with
  | some b => (.ok b, r.skip 1)
  | none => (.error bad, r)

def slice (bad : ε) (n : Nat) : Reader ε β (List β) := fun r =>
  if r.pos + n ≤ r.src.length then (.ok (r.rest.take n), r.skip n) else (.error bad, r)

theorem run_slice (n : Nat) (r : Cursor β) : (slice bad n : Reader ε β _).run r =
    if r.pos + n ≤ r.src.length then (.ok (r.rest.take n), r.skip n) else (.error bad, r) := rfl

-- ---------------------------------------------------------------------------
-- Exact consumption
-- ---------------------------------------------------------------------------

def Consumes (m : Reader ε β α) (xs : List β) (a : α) : Prop :=
  ∀ r tail, r.InRange → r.rest = xs ++ tail → m.run r = (.ok a, r.skip xs.length)

theorem Consumes.pure (a : α) : Consumes (pure a : Reader ε β α) [] a :=
  fun _ _ _ _ => rfl

theorem Consumes.bind {m : Reader ε β α} {f : α → Reader ε β γ}
    (hm : Consumes m xs a) (hf : Consumes (f a) ys c) : Consumes (m >>= f) (xs ++ ys) c := by
  intro r tail hr h
  have hrest : r.rest = xs ++ (ys ++ tail) := by simpa using h
  rw [run_bind, hm r (ys ++ tail) hr hrest]
  simp only [hf _ tail (hr.skip hrest) (rest_skip_append hrest), skip_skip, List.length_append]

theorem Consumes.bind_nil {m : Reader ε β α} {f : α → Reader ε β γ}
    (hm : Consumes m xs a) (hf : Consumes (f a) [] c) : Consumes (m >>= f) xs c := by
  simpa using hm.bind hf

theorem Consumes.nil_bind {m : Reader ε β α} {f : α → Reader ε β γ}
    (hm : Consumes m [] a) (hf : Consumes (f a) ys c) : Consumes (m >>= f) ys c :=
  hm.bind hf

theorem Consumes.map {m : Reader ε β α} (hm : Consumes m xs a) (f : α → γ) :
    Consumes (do return f (← m)) xs (f a) :=
  hm.bind_nil (.pure (f a))

theorem Consumes.lift {x : Except ε α} (h : x = .ok a) :
    Consumes (Reader.lift x : Reader ε β α) [] a := fun r _ _ _ => by simp [h]

theorem Consumes.next : Consumes (next bad : Reader ε β β) [b] b := by
  intro r tail _ h
  have hb : r.src[r.pos]? = some b := by
    simpa [rest, List.head?_drop] using congrArg List.head? h
  simp [Reader.next, run, hb]

theorem Consumes.slice : Consumes (slice bad xs.length : Reader ε β _) xs xs := by
  intro r tail hr h
  have hfit := hr.le_of_rest h
  simp [run_slice, hfit, h]

-- ---------------------------------------------------------------------------
-- What was taken
-- ---------------------------------------------------------------------------

structure Took (r : Cursor β) (xs : List β) (r' : Cursor β) : Prop where
  inRange : r'.InRange
  rest : r.rest = xs ++ r'.rest
  moved : r' = r.skip xs.length

theorem Took.of_rest {r : Cursor β} (hr : r.InRange) (h : r.rest = xs ++ tail) :
    Took r xs (r.skip xs.length) :=
  ⟨hr.skip h, by rw [rest_skip_append h, h], rfl⟩

theorem Took.trans {r r' r'' : Cursor β} (h : Took r xs r') (h' : Took r' ys r'') :
    Took r (xs ++ ys) r'' :=
  ⟨h'.inRange, by rw [h.rest, h'.rest, List.append_assoc],
    by rw [h'.moved, h.moved, skip_skip, List.length_append]⟩

theorem Took.nil {r : Cursor β} (hr : r.InRange) : Took r [] r := ⟨hr, rfl, rfl⟩

/-- A reader that consumes what it returns, and was able to, has taken that. -/
theorem Consumes.took {m : Reader ε β α} {r : Cursor β} (hm : Consumes m xs a) (hr : r.InRange)
    (hrest : r.rest = xs ++ tail) (h : m.run r = (.ok c, r')) : c = a ∧ Took r xs r' := by
  cases h.symm.trans (hm r tail hr hrest)
  exact ⟨rfl, .of_rest hr hrest⟩

-- ---------------------------------------------------------------------------
-- Staying in range
-- ---------------------------------------------------------------------------

/-- On a cursor in range, `m` only moves forward and never past the end,
never fails with `bad`, and moves at least `k` places when it succeeds. -/
structure Advances (bad : ε) (k : Nat) (m : Reader ε β α) : Prop where
  src : ∀ r, r.InRange → (m.run r).2.src = r.src
  inRange : ∀ r, r.InRange → (m.run r).2.InRange
  forward : ∀ r, r.InRange → r.pos ≤ (m.run r).2.pos
  safe : ∀ r, r.InRange → (m.run r).1 ≠ .error bad
  moves : ∀ r a, r.InRange → (m.run r).1 = .ok a → r.pos + k ≤ (m.run r).2.pos

theorem Advances.of_run {m : Reader ε β α}
    (h : ∀ r, r.InRange → (∃ e, e ≠ bad ∧ m.run r = (.error e, r)) ∨
      ∃ a n, k ≤ n ∧ r.pos + n ≤ r.src.length ∧ m.run r = (.ok a, r.skip n)) :
    Advances bad k m := by
  constructor <;> intro r
  · intro hr
    rcases h r hr with ⟨e, -, hm⟩ | ⟨a, n, -, -, hm⟩ <;> rw [hm]
    rfl
  · intro hr
    rcases h r hr with ⟨e, -, hm⟩ | ⟨a, n, -, hn, hm⟩ <;> rw [hm]
    · exact hr
    · exact hn
  · intro hr
    rcases h r hr with ⟨e, -, hm⟩ | ⟨a, n, -, -, hm⟩
    · exact Nat.le_of_eq (by rw [hm])
    · rw [hm]
      exact Nat.le_add_right _ _
  · intro hr
    rcases h r hr with ⟨e, he, hm⟩ | ⟨a, n, -, -, hm⟩ <;> rw [hm]
    · simpa using he
    · simp
  · intro c hr hc
    rcases h r hr with ⟨e, -, hm⟩ | ⟨a, n, hk, -, hm⟩ <;> rw [hm] at hc ⊢
    · simp at hc
    · exact Nat.add_le_add_left hk _

theorem Advances.pure (a : α) : Advances bad 0 (pure a : Reader ε β α) :=
  ⟨fun _ _ => rfl, fun _ h => h, fun _ _ => Nat.le_refl _, fun _ _ => by simp,
    fun _ _ _ _ => Nat.le_refl _⟩

theorem Advances.fail (h : e ≠ bad) : Advances bad k (fail e : Reader ε β α) :=
  ⟨fun _ _ => rfl, fun _ h => h, fun _ _ => Nat.le_refl _, fun _ _ => by simpa using h,
    fun _ _ _ h => by simp at h⟩

theorem Advances.get : Advances bad 0 (get : Reader ε β _) :=
  ⟨fun _ _ => rfl, fun _ h => h, fun _ _ => Nat.le_refl _, fun _ _ => by simp,
    fun _ _ _ _ => Nat.le_refl _⟩

theorem Advances.lift {x : Except ε α} (h : x ≠ .error bad) :
    Advances bad 0 (Reader.lift x : Reader ε β α) :=
  ⟨fun _ _ => rfl, fun _ h => h, fun _ _ => Nat.le_refl _, fun _ _ => h,
    fun _ _ _ _ => Nat.le_refl _⟩

/-- The run goes on from where `m` left the cursor, or stops there. -/
theorem run_bind_cases (m : Reader ε β α) (f : α → Reader ε β γ) (r : Cursor β) :
    (∃ a r', m.run r = (.ok a, r') ∧ (m >>= f).run r = (f a).run r') ∨
      (∃ e r', m.run r = (.error e, r') ∧ (m >>= f).run r = (.error e, r')) := by
  rcases h : m.run r with ⟨e | a, r'⟩
  · exact .inr ⟨e, r', rfl, by simp [run_bind, h]⟩
  · exact .inl ⟨a, r', rfl, by simp [run_bind, h]⟩

theorem Advances.bind {m : Reader ε β α} {f : α → Reader ε β γ}
    (hm : Advances bad k m) (hf : ∀ a, Advances bad j (f a)) : Advances bad (k + j) (m >>= f) := by
  constructor
  · intro r hr
    have hs := hm.src r hr
    have hi := hm.inRange r hr
    rcases run_bind_cases m f r with ⟨a, r', h, hb⟩ | ⟨e, r', h, hb⟩ <;> rw [h] at hs hi <;> rw [hb]
    · exact ((hf a).src r' hi).trans hs
    · exact hs
  · intro r hr
    have hi := hm.inRange r hr
    rcases run_bind_cases m f r with ⟨a, r', h, hb⟩ | ⟨e, r', h, hb⟩ <;> rw [h] at hi <;> rw [hb]
    · exact (hf a).inRange r' hi
    · exact hi
  · intro r hr
    have hi := hm.inRange r hr
    have hp := hm.forward r hr
    rcases run_bind_cases m f r with ⟨a, r', h, hb⟩ | ⟨e, r', h, hb⟩ <;> rw [h] at hi hp <;> rw [hb]
    · exact Nat.le_trans hp ((hf a).forward r' hi)
    · exact hp
  · intro r hr
    have hi := hm.inRange r hr
    have hs := hm.safe r hr
    rcases run_bind_cases m f r with ⟨a, r', h, hb⟩ | ⟨e, r', h, hb⟩ <;> rw [h] at hi hs <;> rw [hb]
    · exact (hf a).safe r' hi
    · simpa using hs
  · intro r c hr hc
    have hi := hm.inRange r hr
    rcases run_bind_cases m f r with ⟨a, r', h, hb⟩ | ⟨e, r', h, hb⟩ <;> rw [hb] at hc ⊢
    · rw [h] at hi
      have hp := hm.moves r a hr (by rw [h])
      have hq := (hf a).moves r' c hi hc
      rw [h] at hp
      dsimp only at hp
      omega
    · simp at hc

theorem Advances.mono {m : Reader ε β α} (h : Advances bad k m) (hj : j ≤ k) : Advances bad j m :=
  { h with moves := fun r a hr ha => by have := h.moves r a hr ha; omega }

end Reader
end Cursor
