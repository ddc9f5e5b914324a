import Astro.Tui.LogView
import Mathlib.Data.List.Chain

/-!
# From bytes to keys

What is typed reaches the program as bytes. `read_key` makes a single key of
an escape sequence, `KeyDebounce` drops a key that comes again too soon, and
most handlers throw away what was typed while they were at work. All this
takes nothing away from what the program can do: who waits can do everything
in any order.
-/

namespace Astro

/-- What `read_key` returns for an escape sequence. -/
def escapeKey : Int := 1000

/-- `read_key` on what has been typed and not been read; `none` is its -1. A
sequence is read until nothing is there. -/
def readKey : Bytes → Option Int × Bytes
  | [] => (none, [])
  | ch :: input => if ch = 0x1b then (some escapeKey, []) else (some ch.toNat, input)

/-- Reads keys until there is none. -/
def drainInput : Bytes → Bytes
  | [] => []
  | ch :: input => if ch = 0x1b then [] else drainInput input

theorem drainInput_eq_nil (input : Bytes) : drainInput input = [] := by
  induction input with
  | nil => rfl
  | cons ch input ih =>
    unfold drainInput
    split
    · rfl
    · exact ih

-- ---------------------------------------------------------------------------
-- Debouncing
-- ---------------------------------------------------------------------------

/-- The times are readings of the steady clock in nanoseconds. -/
structure KeyDebounce where
  lastKey : Int := -1
  lastTime : Nat

namespace KeyDebounce

def minIntervalMs : Nat := 200

def millisecond : Nat := 1000000

def allow (now : Nat) (key : Int) (debounce : KeyDebounce) : Option KeyDebounce :=
  let delta := (now - debounce.lastTime) / millisecond
  if key = debounce.lastKey ∧ delta < minIntervalMs then none
  else some { lastKey := key, lastTime := now }

theorem allow_late (h : debounce.lastTime + minIntervalMs * millisecond ≤ now) (key : Int) :
    allow now key debounce = some { lastKey := key, lastTime := now } := by
  refine if_neg fun hsoon => absurd hsoon.2 ?_
  rw [Nat.not_lt, Nat.le_div_iff_mul_le (by decide)]
  omega

theorem allow_eq_some (h : allow now key debounce = some debounce') :
    debounce' = { lastKey := key, lastTime := now } ∧
      (debounce.lastKey = key → debounce.lastTime + minIntervalMs * millisecond ≤ now) := by
  simp only [allow] at h
  split at h
  · cases h
  next hno =>
    cases h
    refine ⟨rfl, fun hkey => ?_⟩
    have hlate := not_and.mp hno hkey.symm
    rw [Nat.not_lt, Nat.le_div_iff_mul_le (by decide)] at hlate
    have hpos : 0 < minIntervalMs * millisecond := by decide
    omega

end KeyDebounce

-- ---------------------------------------------------------------------------
-- The terminal
-- ---------------------------------------------------------------------------

/-- What handlers are given from outside, and the time of day at which they log. -/
structure Answers where
  time : Bytes
  unixTime : UInt64 := 0
  io : AppendTransfers := .buffered none none
  signer : Signer := sampleSigner
  clock : Nat → UInt64 := fun _ => 0
  truncates : Bool := true

/-- What the key loop calls for a key. -/
def keyEvent (answers : Answers) (key : Int) : Tui.Event :=
  match Char.ofNat key.toNat with
  | 'q' | 'Q' => .other (.key .quit)
  | 'g' | 'G' => .other (.key (.genesis answers.unixTime answers.io))
  | 'b' | 'B' => .other (.key (.append answers.signer answers.unixTime answers.io))
  | 'i' | 'I' => .inspect
  | 'm' | 'M' => .other (.key (.mine answers.signer answers.clock))
  | '[' => .other (.key .easier)
  | ']' => .other (.key .harder)
  | 'j' => .scrollDown
  | 'k' => .scrollUp
  | 'x' | 'X' => .other (.key (.clear answers.truncates))
  | _ => .other (.key .view)

/-- The keys whose handlers are followed by `drain_input`. -/
def drains (key : Int) : Bool :=
  match Char.ofNat key.toNat with
  | 'q' | 'Q' | 'g' | 'G' | 'b' | 'B' | 'i' | 'I' | 'm' | 'M' | 'x' | 'X' => true
  | _ => false

structure Terminal where
  screen : Screen
  input : Bytes := []
  now : Nat
  debounce : KeyDebounce
  /-- The keys that were handled, and when; no step looks at it. -/
  handled : List (Int × Nat) := []

inductive Happening
  | types (bytes : Bytes)
  | passes (nanoseconds : Nat)
  | reads (answers : Answers)
  | other (time : Bytes) (label : Label)

def Label.isKey : Label → Bool
  | .key _ | .noKey => true
  | _ => false

namespace Terminal

/-- One turn of the key loop. -/
def keyLoop (E : Env) (answers : Answers) (t : Terminal) : Option Terminal :=
  match readKey t.input with
  | (none, input) =>
    (t.screen.step E (answers.time, .other .noKey)).map fun screen => { t with screen, input }
  | (some key, input) => match t.debounce.allow t.now key with
    | none => some { t with input }
    | some debounce =>
      (t.screen.step E (answers.time, keyEvent answers key)).map fun screen =>
        -- the handler of X may still have to join the worker
        let returned := screen.tui.pc = .keys
        { t with
          screen
          debounce
          handled := t.handled ++ [(key, t.now)]
          input := if drains key ∧ returned then drainInput input else input }

def step (E : Env) (t : Terminal) : Happening → Option Terminal
  | .types bytes => some { t with input := t.input ++ bytes }
  | .passes nanoseconds => some { t with now := t.now + nanoseconds }
  | .reads answers => if t.screen.tui.pc = .keys then t.keyLoop E answers else none
  | .other time label =>
    if label.isKey then none
    else (t.screen.step E (time, .other label)).map fun screen =>
      match t.screen.tui.pc, label with
      | .joining _, .join => { t with screen, input := drainInput t.input }
      | _, _ => { t with screen }

def start (E : Env) (store : BlockStore) (times : Nat → Bytes) (began : Nat) : Terminal :=
  { screen := .start E store times, now := began, debounce := { lastTime := began } }

def Reachable (E : Env) (store : BlockStore) (times : Nat → Bytes) (began : Nat) :
    Terminal → Prop :=
  Machine.Run (step E) (fun _ _ => True) (start E store times began)

-- ---------------------------------------------------------------------------
-- Every step is one of the screen, or none
-- ---------------------------------------------------------------------------

/-- What a step does to the screen. -/
theorem screen_of_step {t t' : Terminal} (hs : t.step E happening = some t') :
    t'.screen = t.screen ∨ ∃ turn, t.screen.step E turn = some t'.screen := by
  cases happening with
  | types bytes => cases hs; exact .inl rfl
  | passes nanoseconds => cases hs; exact .inl rfl
  | reads answers =>
    simp only [step, keyLoop] at hs
    split at hs
    · split at hs
      · obtain ⟨screen, hscreen, rfl⟩ := Option.map_eq_some_iff.mp hs
        exact .inr ⟨_, hscreen⟩
      · split at hs
        · cases hs
          exact .inl rfl
        · obtain ⟨screen, hscreen, rfl⟩ := Option.map_eq_some_iff.mp hs
          exact .inr ⟨_, hscreen⟩
    · cases hs
  | other time label =>
    simp only [step] at hs
    split at hs
    · cases hs
    · obtain ⟨screen, hscreen, rfl⟩ := Option.map_eq_some_iff.mp hs
      refine .inr ⟨_, hscreen.trans (congrArg some ?_)⟩
      split <;> rfl

theorem Reachable.screen (h : Reachable E store times began t) :
    Screen.Reachable E store times t.screen := by
  induction h with
  | refl => exact .refl
  | step _ _ hs ih =>
    rcases screen_of_step hs with hsame | ⟨turn, hturn⟩
    · exact hsame ▸ ih
    · exact ih.step trivial hturn

-- ---------------------------------------------------------------------------
-- Every step of the screen can be typed
-- ---------------------------------------------------------------------------

/-- Every key is on the keyboard. -/
theorem exists_keyEvent (time : Bytes) {event : Tui.Event} (hkey : event.label = .key key) :
    ∃ byte answers, byte ≠ 0x1b ∧ answers.time = time ∧
      keyEvent answers (byte : UInt8).toNat = event := by
  cases event with
  | inspect => exact ⟨105, { time }, by decide, rfl, rfl⟩
  | scrollDown => exact ⟨106, { time }, by decide, rfl, rfl⟩
  | scrollUp => exact ⟨107, { time }, by decide, rfl, rfl⟩
  | other label =>
    obtain rfl : label = .key key := hkey
    cases key with
    | quit => exact ⟨113, { time }, by decide, rfl, rfl⟩
    | genesis unixTime io => exact ⟨103, { time, unixTime, io }, by decide, rfl, rfl⟩
    | append signer unixTime io => exact ⟨98, { time, signer, unixTime, io }, by decide, rfl, rfl⟩
    | mine signer clock => exact ⟨109, { time, signer, clock }, by decide, rfl, rfl⟩
    | easier => exact ⟨91, { time }, by decide, rfl, rfl⟩
    | harder => exact ⟨93, { time }, by decide, rfl, rfl⟩
    | clear truncates => exact ⟨120, { time, truncates }, by decide, rfl, rfl⟩
    | view => exact ⟨32, { time }, by decide, rfl, rfl⟩

theorem step_keys {t t' : Tui} (h : t.step E label = some t') (hkey : label.isKey = true) :
    t.pc = .keys := by
  unfold Tui.step at h
  split at h <;> simp_all [Label.isKey]

/-- A key that is pressed when nothing is left to read and the last one is long ago. -/
theorem run_key {t : Terminal} {s : Screen} (hinput : t.input = [])
    (hstep : t.screen.step E (time, event) = some s) (hkey : event.label = .key key) :
    ∃ t', Machine.Run (step E) (fun _ _ => True) t t' ∧ t'.screen = s ∧ t'.input = [] := by
  obtain ⟨tui, htui, -⟩ := Option.map_eq_some_iff.mp hstep
  have hpc : t.screen.tui.pc = .keys := step_keys htui (by rw [hkey]; rfl)
  obtain ⟨byte, answers, hplain, rfl, rfl⟩ := exists_keyEvent time hkey
  let wait := t.debounce.lastTime + KeyDebounce.minIntervalMs * KeyDebounce.millisecond
  have hallow := KeyDebounce.allow_late (Nat.le_add_left wait t.now) byte.toNat
  let typed : Terminal := { t with input := [byte], now := t.now + wait }
  have htyped : Machine.Run (step E) (fun _ _ => True) t typed := by
    refine (Machine.Run.refl.step (l := .types [byte]) trivial rfl).step (l := .passes wait) trivial ?_
    simp [step, hinput, typed]
  let pressed : Terminal := { typed with
    screen := s
    debounce := { lastKey := byte.toNat, lastTime := t.now + wait }
    handled := t.handled ++ [((byte.toNat : Int), t.now + wait)]
    input := [] }
  have hread : typed.step E (.reads answers) = some pressed := by
    simp only [step, typed, hpc, if_true, keyLoop, readKey, if_neg hplain, hallow, hstep,
      Option.map_some, drainInput, ite_self, pressed]
  exact ⟨pressed, htyped.step trivial hread, rfl, rfl⟩

/-- Any other step of the screen. -/
theorem run_other {t : Terminal} {s : Screen} (hinput : t.input = [])
    (hstep : t.screen.step E (time, .other label) = some s) (hkey : label.isKey = false) :
    ∃ t', Machine.Run (step E) (fun _ _ => True) t t' ∧ t'.screen = s ∧ t'.input = [] := by
  refine ⟨{ t with screen := s }, Machine.Run.refl.step (l := .other time label) trivial ?_, rfl, hinput⟩
  simp only [step, hkey, Bool.false_eq_true, if_false, hstep, Option.map_some, hinput, drainInput]
  split <;> simp [← hinput]

theorem run_noKey {t : Terminal} {s : Screen} (hinput : t.input = [])
    (hstep : t.screen.step E (time, .other .noKey) = some s) :
    ∃ t', Machine.Run (step E) (fun _ _ => True) t t' ∧ t'.screen = s ∧ t'.input = [] := by
  obtain ⟨tui, htui, -⟩ := Option.map_eq_some_iff.mp hstep
  refine ⟨{ t with screen := s, input := [] },
    Machine.Run.refl.step (l := .reads { time }) trivial ?_, rfl, rfl⟩
  simp [step, step_keys htui rfl, keyLoop, hinput, readKey, hstep]

theorem exists_reachable (h : Screen.Reachable E store times s) (began : Nat) :
    ∃ t, Reachable E store times began t ∧ t.screen = s ∧ t.input = [] := by
  induction h with
  | refl => exact ⟨_, .refl, rfl, rfl⟩
  | @step s s' turn _ _ hs ih =>
    obtain ⟨t, hrun, rfl, hinput⟩ := ih
    obtain ⟨time, event⟩ := turn
    have hanswer : ∃ t', Machine.Run (step E) (fun _ _ => True) t t' ∧ t'.screen = s' ∧
        t'.input = [] := by
      cases event with
      | other label =>
        cases label with
        | key key => exact run_key hinput hs rfl
        | noKey => exact run_noKey hinput hs
        | _ => exact run_other hinput hs rfl
      | _ => exact run_key hinput hs rfl
    obtain ⟨t', hmore, hscreen, hinput'⟩ := hanswer
    exact ⟨t', hrun.trans hmore, hscreen, hinput'⟩

-- ---------------------------------------------------------------------------
-- What is handled
-- ---------------------------------------------------------------------------

/-- Which key a step handles, if any, and what it leaves to be read. -/
inductive Handling (t : Terminal) (happening : Happening) (t' : Terminal) : Prop
  | none (hhandled : t'.handled = t.handled) (hdebounce : t'.debounce = t.debounce)
      (hinput : t'.input = t.input ∨ t'.input = [] ∨ t'.input = (readKey t.input).2 ∨
        ∃ bytes, happening = .types bytes ∧ t'.input = t.input ++ bytes)
  | key (key : Int) (hkey : (readKey t.input).1 = some key)
      (hallow : t.debounce.allow t.now key = some t'.debounce)
      (hhandled : t'.handled = t.handled ++ [(key, t.now)])
      (hinput : t'.input = [] ∨ t'.input = (readKey t.input).2)

theorem handling_of_step {t t' : Terminal} (hs : t.step E happening = some t') :
    Handling t happening t' := by
  cases happening with
  | types bytes =>
    cases hs
    exact .none rfl rfl (.inr (.inr (.inr ⟨bytes, rfl, rfl⟩)))
  | passes nanoseconds =>
    cases hs
    exact .none rfl rfl (.inl rfl)
  | reads answers =>
    simp only [step, keyLoop] at hs
    split at hs
    · split at hs
      next input hread =>
        obtain ⟨screen, -, rfl⟩ := Option.map_eq_some_iff.mp hs
        exact .none rfl rfl (.inr (.inr (.inl (by rw [hread]))))
      next key input hread =>
        split at hs
        · cases hs
          exact .none rfl rfl (.inr (.inr (.inl (by rw [hread]))))
        next debounce hallow =>
          obtain ⟨screen, -, rfl⟩ := Option.map_eq_some_iff.mp hs
          refine .key key (by rw [hread]) hallow rfl ?_
          rw [hread]
          dsimp only
          split
          · exact .inl (drainInput_eq_nil input)
          · exact .inr rfl
    · cases hs
  | other time label =>
    simp only [step] at hs
    split at hs
    · cases hs
    · obtain ⟨screen, -, rfl⟩ := Option.map_eq_some_iff.mp hs
      split
      · exact .none rfl rfl (.inr (.inl (drainInput_eq_nil t.input)))
      · exact .none rfl rfl (.inl rfl)

/-- The same key is not handled again within 200 ms. -/
def Apart (first second : Int × Nat) : Prop :=
  first.1 = second.1 → first.2 + KeyDebounce.minIntervalMs * KeyDebounce.millisecond ≤ second.2

structure Spaced (t : Terminal) : Prop where
  apart : t.handled.IsChain Apart
  last : ∀ pressed ∈ t.handled.getLast?, pressed = (t.debounce.lastKey, t.debounce.lastTime)

theorem step_spaced {t t' : Terminal} (h : Spaced t) (hs : t.step E happening = some t') :
    Spaced t' := by
  cases handling_of_step hs with
  | none hhandled hdebounce _ => exact ⟨hhandled ▸ h.apart, hhandled ▸ hdebounce ▸ h.last⟩
  | key key _ hallow hhandled _ =>
    obtain ⟨hdebounce, hlate⟩ := KeyDebounce.allow_eq_some hallow
    refine ⟨?_, ?_⟩
    · rw [hhandled]
      refine h.apart.append (.singleton _) fun pressed hpressed second hsecond => ?_
      cases h.last pressed hpressed
      obtain rfl : (key, t.now) = second := by simpa using hsecond
      exact hlate
    · rw [hhandled]
      simp [hdebounce]

/-- What arrives at once: a plain byte of some kind, or an escape sequence as a whole. -/
def Piece (Plain : UInt8 → Prop) (bytes : Bytes) : Prop :=
  (∃ byte, bytes = [byte] ∧ byte ≠ 0x1b ∧ Plain byte) ∨ ∃ rest, bytes = 0x1b :: rest

/-- Whatever is typed is typed in such pieces. -/
def Pieces (Plain : UInt8 → Prop) (_ : Terminal) : Happening → Prop
  | .types bytes => Piece Plain bytes
  | _ => True

/-- A key that stands for an escape sequence or for a plain byte. -/
def Known (Plain : UInt8 → Prop) (key : Int) : Prop :=
  key = escapeKey ∨ ∃ byte, Plain byte ∧ key = (byte : UInt8).toNat

inductive Whole (Plain : UInt8 → Prop) : Bytes → Prop
  | nil : Whole Plain []
  | cons (hpiece : Piece Plain bytes) (hrest : Whole Plain rest) : Whole Plain (bytes ++ rest)

theorem Whole.concat (h : Whole Plain waiting) (hpiece : Piece Plain bytes) :
    Whole Plain (waiting ++ bytes) := by
  induction h with
  | nil => simpa using Whole.cons hpiece .nil
  | cons hfirst _ ih =>
    rw [List.append_assoc]
    exact .cons hfirst ih

theorem Whole.read (h : Whole Plain waiting) :
    Whole Plain (readKey waiting).2 ∧
      ∀ key, (readKey waiting).1 = some key → Known Plain key := by
  cases h with
  | nil => exact ⟨.nil, by simp [readKey]⟩
  | cons hpiece hrest =>
    rcases hpiece with ⟨byte, rfl, hplain, hbyte⟩ | ⟨sequence, rfl⟩
    · simp only [List.singleton_append, readKey, if_neg hplain, Option.some.injEq]
      exact ⟨hrest, fun key hkey => .inr ⟨byte, hbyte, hkey.symm⟩⟩
    · simp only [List.cons_append, readKey, if_true, Option.some.injEq]
      exact ⟨.nil, fun key hkey => .inl hkey.symm⟩

structure Understood (Plain : UInt8 → Prop) (t : Terminal) : Prop where
  input : Whole Plain t.input
  handled : ∀ pressed ∈ t.handled, Known Plain pressed.1

theorem step_understood {t t' : Terminal} (h : Understood Plain t)
    (hpieces : Pieces Plain t happening) (hs : t.step E happening = some t') :
    Understood Plain t' := by
  obtain ⟨hrest, hknown⟩ := h.input.read
  cases handling_of_step hs with
  | none hhandled _ hinput =>
    refine ⟨?_, hhandled ▸ h.handled⟩
    rcases hinput with hsame | hnil | hread | ⟨bytes, rfl, happended⟩
    · exact hsame ▸ h.input
    · exact hnil ▸ .nil
    · exact hread ▸ hrest
    · exact happended ▸ h.input.concat hpieces
  | key key hkey _ hhandled hinput =>
    refine ⟨?_, ?_⟩
    · rcases hinput with hnil | hread
      · exact hnil ▸ .nil
      · exact hread ▸ hrest
    · intro pressed hpressed
      rw [hhandled, List.mem_append, List.mem_singleton] at hpressed
      rcases hpressed with hold | rfl
      · exact h.handled pressed hold
      · exact hknown key hkey

-- ---------------------------------------------------------------------------
-- The keyboard
-- ---------------------------------------------------------------------------

/-- Behind the keyboard the program can do exactly what it could do if keys
came in any order and at any time. The same key is never handled twice in a
row within 200 ms. And where escape sequences arrive as a whole, no byte of
one is ever taken for a key. -/
theorem keyboard_exact (E : Env) (store : BlockStore) (times : Nat → Bytes) (began : Nat) :
    (∀ s, Screen.Reachable E store times s ↔
      ∃ t, Reachable E store times began t ∧ t.screen = s) ∧
    (∀ t, Reachable E store times began t → t.handled.IsChain Apart) ∧
    ∀ Plain t, Machine.Run (step E) (Pieces Plain) (start E store times began) t →
      ∀ pressed ∈ t.handled, Known Plain pressed.1 := by
  refine ⟨fun s => ⟨fun h => ?_, ?_⟩, fun t h => ?_, fun Plain t h => ?_⟩
  · obtain ⟨t, hreachable, hscreen, -⟩ := exists_reachable h began
    exact ⟨t, hreachable, hscreen⟩
  · rintro ⟨t, h, rfl⟩
    exact h.screen
  · have hstart : Spaced (start E store times began) := ⟨.nil, by simp [start]⟩
    exact (Machine.Run.invariant h hstart fun _ _ _ ht _ => step_spaced ht).apart
  · have hstart : Understood Plain (start E store times began) := ⟨.nil, by simp [start]⟩
    exact (Machine.Run.invariant h hstart fun _ _ _ => step_understood).handled

/-- G, and then the arrow that sends a B behind an escape and a bracket. -/
def sampleTyping : List Happening :=
  [.other [] (.loopHead (.buffered none none)), .types [103], .passes 5, .reads { time := [] },
    .types [0x1b, 91, 66], .reads { time := [] }]

theorem keyboard_exact_sample : ∃ t ∈ Machine.runLabels (step sampleEnv) (fun _ _ => True)
      (start sampleEnv {} (fun _ => []) 0) sampleTyping,
    t.screen.tui.app.chain.height = 1 ∧ t.handled = [(103, 5), (escapeKey, 5)] ∧
      Screen.Reachable sampleEnv {} (fun _ => []) t.screen ∧
      ∀ pressed ∈ t.handled, Known (· = 103) pressed.1 := by
  have hrun : ∃ t ∈ Machine.runLabels (step sampleEnv) (fun _ _ => True)
      (start sampleEnv {} (fun _ => []) 0) sampleTyping,
      t.screen.tui.app.chain.height = 1 ∧ t.handled = [(103, 5), (escapeKey, 5)] := by
    decide +kernel
  obtain ⟨t, ht, hheight, hhandled⟩ := hrun
  obtain ⟨hscreen, -, hknown⟩ := keyboard_exact sampleEnv {} (fun _ => []) 0
  have hpieces : ∀ happening ∈ sampleTyping, ∀ t, Pieces (· = 103) t happening := by
    simp [sampleTyping, Pieces, Piece]
  exact ⟨t, ht, hheight, hhandled, (hscreen _).mpr ⟨t, Machine.Run.of_runLabels .refl ht, rfl⟩,
    hknown _ t (Machine.Run.of_labels hpieces ht)⟩

end Terminal

end Astro
