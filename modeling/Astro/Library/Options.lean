import Mathlib.Data.List.Basic
import Mathlib.Data.List.Nodup

/-!
# Command-line options with a value

An option `name` is set by one argument `name=value`, or by the two arguments
`name` and `value`. Options are tried in their order; the first argument that
sets none of them ends the list, and says why. Words are lists, and `sep` is
what stands for the equals sign.

`parse_decomposes` says what that comes to: every list of arguments is a list
of settings and a rest that begins with none, and is read setting by setting.
-/

namespace Options

variable {α σ ε : Type} [DecidableEq α]

structure Opt (α σ ε : Type) where
  name : List α
  /-- What setting the option to a value makes of the values so far. -/
  assign : List α → σ → Except ε σ

inductive Parsed (α σ ε : Type)
  | run (s : σ)
  | help
  | unknown (arg : List α)
  | throws (e : ε)

/-- Whether an argument sets the option, and to which value: `none` stands for
the argument behind it, which the last argument does not have. -/
def Opt.use (sep : α) (last : Bool) (arg : List α) (o : Opt α σ ε) : Option (Option (List α)) :=
  if (o.name ++ [sep]).isPrefixOf arg then some (some (arg.drop (o.name.length + 1)))
  else if arg = o.name && !last then some none
  else none

/-- The first option that an argument sets. -/
def firstUse (sep : α) (options : List (Opt α σ ε)) (last : Bool) (arg : List α) :
    Option (Opt α σ ε × Option (List α)) :=
  options.findSome? fun o => (o.use sep last arg).map (o, ·)

/-- What an argument means that sets no option. -/
def stop (isHelp : List α → Bool) (arg : List α) : Parsed α σ ε :=
  if isHelp arg then .help else .unknown arg

def parse (sep : α) (options : List (Opt α σ ε)) (isHelp : List α → Bool) (s : σ) :
    List (List α) → Parsed α σ ε
  | [] => .run s
  | arg :: rest =>
    match firstUse sep options rest.isEmpty arg, rest with
    | some (o, some value), rest =>
      match o.assign value s with
      | .error e => .throws e
      | .ok s => parse sep options isHelp s rest
    | some (o, none), value :: rest =>
      match o.assign value s with
      | .error e => .throws e
      | .ok s => parse sep options isHelp s rest
    | _, _ => stop isHelp arg

-- ---------------------------------------------------------------------------
-- Settings
-- ---------------------------------------------------------------------------

/-- An option that is set to a value, in one argument or in two. -/
structure Setting (α σ ε : Type) where
  option : Opt α σ ε
  value : List α
  inline : Bool

def Setting.args (sep : α) (x : Setting α σ ε) : List (List α) :=
  if x.inline then [x.option.name ++ sep :: x.value] else [x.option.name, x.value]

def Setting.apply (s : σ) (x : Setting α σ ε) : Except ε σ := x.option.assign x.value s

/-- Different options that no argument mixes up. -/
structure Distinct (sep : α) (options : List (Opt α σ ε)) : Prop where
  nodup : (options.map Opt.name).Nodup
  free : ∀ o ∈ options, sep ∉ o.name

/-- The arguments do not begin with a setting. -/
def Rest (sep : α) (options : List (Opt α σ ε)) : List (List α) → Prop
  | [] => True
  | arg :: rest => ∀ o ∈ options, o.use sep rest.isEmpty arg = none

/-- What a list of arguments means that begins with no setting. -/
def ends (isHelp : List α → Bool) (s : σ) : List (List α) → Parsed α σ ε
  | [] => .run s
  | arg :: _ => stop isHelp arg

variable {sep : α} {options : List (Opt α σ ε)} {isHelp : List α → Bool} {s : σ}

theorem append_sep_inj {a b x y : List α} (ha : sep ∉ a) (hb : sep ∉ b)
    (h : a ++ sep :: x = b ++ sep :: y) : a = b ∧ x = y := by
  have htake (c z : List α) (hc : sep ∉ c) : (c ++ sep :: z).takeWhile (· ≠ sep) = c := by
    rw [List.takeWhile_append_of_pos fun d hd => by simpa using fun heq : d = sep => hc (heq ▸ hd)]
    simp
  have heq : a = b := by rw [← htake a x ha, h, htake b y hb]
  subst heq
  exact ⟨rfl, (List.cons.inj (List.append_cancel_left h)).2⟩

theorem use_inline {o : Opt α σ ε} {last : Bool} :
    o.use sep last (o.name ++ sep :: value) = some (some value) := by
  have hfront : (o.name ++ [sep]).isPrefixOf (o.name ++ sep :: value) = true :=
    List.isPrefixOf_iff_prefix.mpr ⟨value, by simp⟩
  have hdrop : (o.name ++ sep :: value).drop (o.name.length + 1) = value := by
    rw [← List.singleton_append, ← List.append_assoc]
    exact List.drop_left' (by simp)
  rw [Opt.use, if_pos hfront, hdrop]

theorem use_name {o : Opt α σ ε} (hfree : sep ∉ o.name) : o.use sep false o.name = some none := by
  have hfront : ¬(o.name ++ [sep]).isPrefixOf o.name = true := by
    rw [List.isPrefixOf_iff_prefix]
    exact fun h => hfree (h.subset (by simp))
  rw [Opt.use, if_neg hfront]
  simp

/-- No other option is set by the first argument of a setting. -/
theorem use_other {o other : Opt α σ ε} {last : Bool} (value : List α) (ho : sep ∉ o.name)
    (hother : sep ∉ other.name) (hne : other.name ≠ o.name) :
    other.use sep last (o.name ++ sep :: value) = none ∧ other.use sep last o.name = none := by
  constructor
  · have hfront : ¬(other.name ++ [sep]).isPrefixOf (o.name ++ sep :: value) = true := by
      rw [List.isPrefixOf_iff_prefix]
      rintro ⟨t, ht⟩
      rw [List.append_assoc] at ht
      exact hne (append_sep_inj hother ho ht).1
    have hname : o.name ++ sep :: value ≠ other.name := fun h => hother (h ▸ by simp)
    rw [Opt.use, if_neg hfront]
    simp [hname]
  · have hfront : ¬(other.name ++ [sep]).isPrefixOf o.name = true := by
      rw [List.isPrefixOf_iff_prefix]
      exact fun h => ho (h.subset (by simp))
    rw [Opt.use, if_neg hfront]
    simp [Ne.symm hne]

theorem firstUse_eq {o : Opt α σ ε} {last : Bool} (hnodup : (options.map Opt.name).Nodup)
    (hmem : o ∈ options) (huse : o.use sep last arg = some u)
    (hothers : ∀ other ∈ options, other.name ≠ o.name → other.use sep last arg = none) :
    firstUse sep options last arg = some (o, u) := by
  obtain ⟨before, after, rfl⟩ := List.append_of_mem hmem
  have hbefore : before.findSome? (fun o => (o.use sep last arg).map (o, ·)) = none := by
    refine List.findSome?_eq_none_iff.mpr fun other hother => ?_
    have hne : other.name ≠ o.name := by
      rw [List.map_append, List.map_cons] at hnodup
      exact fun h => (List.nodup_append.mp hnodup).2.2 _ (List.mem_map_of_mem hother) _
        List.mem_cons_self h
    rw [hothers other (List.mem_append_left _ hother) hne, Option.map_none]
  rw [firstUse, List.findSome?_append, hbefore, List.findSome?_cons, huse]
  rfl

-- ---------------------------------------------------------------------------
-- Reading
-- ---------------------------------------------------------------------------

/-- A setting is applied, and the arguments behind it are read. -/
theorem parse_setting (hd : Distinct sep options) {x : Setting α σ ε} (hx : x.option ∈ options)
    (rest : List (List α)) : parse sep options isHelp s (x.args sep ++ rest) =
      match x.apply s with
      | .error e => .throws e
      | .ok s => parse sep options isHelp s rest := by
  have hfree := hd.free x.option hx
  cases hinline : x.inline with
  | true =>
    have huse (last : Bool) : firstUse sep options last (x.option.name ++ sep :: x.value) =
        some (x.option, some x.value) := firstUse_eq hd.nodup hx use_inline
      fun other hother hne => (use_other x.value hfree (hd.free other hother) hne).1
    rw [Setting.args, hinline, if_pos rfl, List.singleton_append, parse.eq_def]
    simp only [huse]
    rfl
  | false =>
    have huse : firstUse sep options false x.option.name = some (x.option, none) :=
      firstUse_eq hd.nodup hx (use_name hfree)
        fun other hother hne => (use_other [] hfree (hd.free other hother) hne).2
    rw [Setting.args, hinline, if_neg (by decide), List.cons_append, List.singleton_append,
      parse.eq_def]
    simp only [List.isEmpty_cons, huse]
    rfl

theorem parse_settings (hd : Distinct sep options) {settings : List (Setting α σ ε)}
    (hx : ∀ x ∈ settings, x.option ∈ options) (rest : List (List α)) :
    parse sep options isHelp s (settings.flatMap (Setting.args sep) ++ rest) =
      match settings.foldlM Setting.apply s with
      | .error e => .throws e
      | .ok s => parse sep options isHelp s rest := by
  induction settings generalizing s with
  | nil => rfl
  | cons x settings ih =>
    obtain ⟨hfirst, hx⟩ := List.forall_mem_cons.mp hx
    rw [List.flatMap_cons, List.append_assoc, parse_setting hd hfirst, List.foldlM_cons]
    cases x.apply s with
    | error e => rfl
    | ok s => exact ih hx

theorem parse_rest {rest : List (List α)} (h : Rest sep options rest) :
    parse sep options isHelp s rest = ends isHelp s rest := by
  cases rest with
  | nil => rfl
  | cons arg rest =>
    have hnone : firstUse sep options rest.isEmpty arg = none :=
      List.findSome?_eq_none_iff.mpr fun o ho => by rw [h o ho, Option.map_none]
    rw [parse.eq_def]
    simp only [hnone]
    rfl

theorem of_use_inline {o : Opt α σ ε} {last : Bool} (h : o.use sep last arg = some (some value)) :
    arg = o.name ++ sep :: value := by
  unfold Opt.use at h
  split at h
  next hfront =>
    obtain ⟨t, rfl⟩ := List.isPrefixOf_iff_prefix.mp hfront
    have hdrop : (o.name ++ [sep] ++ t).drop (o.name.length + 1) = t := List.drop_left' (by simp)
    rw [hdrop] at h
    cases h
    simp
  · split at h <;> cases h

theorem of_use_name {o : Opt α σ ε} {last : Bool} (h : o.use sep last arg = some none) :
    arg = o.name ∧ last = false := by
  unfold Opt.use at h
  split at h
  · cases h
  · split at h
    next hname => simpa using hname
    · cases h

/-- Arguments that do not begin with a setting end the list. -/
theorem exists_settings (sep : α) (options : List (Opt α σ ε)) (args : List (List α)) :
    ∃ (settings : List (Setting α σ ε)) (rest : List (List α)),
      (∀ x ∈ settings, x.option ∈ options) ∧
      args = settings.flatMap (Setting.args sep) ++ rest ∧ Rest sep options rest := by
  induction hn : args.length using Nat.strongRecOn generalizing args with
  | ind n ih =>
    by_cases hends : Rest sep options args
    · exact ⟨[], args, by simp, rfl, hends⟩
    · obtain ⟨x, later, hx, rfl⟩ : ∃ (x : Setting α σ ε) (later : List (List α)),
          x.option ∈ options ∧ args = x.args sep ++ later := by
        cases args with
        | nil => exact (hends trivial).elim
        | cons arg rest =>
          simp only [Rest, not_forall] at hends
          obtain ⟨o, ho, hsome⟩ := hends
          obtain ⟨u, hu⟩ := Option.ne_none_iff_exists'.mp hsome
          cases u with
          | some value =>
            exact ⟨⟨o, value, true⟩, rest, ho, by simp [Setting.args, of_use_inline hu]⟩
          | none =>
            obtain ⟨rfl, hlast⟩ := of_use_name hu
            obtain ⟨value, later, rfl⟩ := List.exists_cons_of_ne_nil (l := rest) (by
              rintro rfl
              simp at hlast)
            exact ⟨⟨o, value, false⟩, later, ho, rfl⟩
      have hlt : later.length < n := by
        rw [← hn, List.length_append]
        unfold Setting.args
        split <;> simp
      obtain ⟨settings, rest, hsettings, rfl, hrest⟩ := ih _ hlt later rfl
      exact ⟨x :: settings, rest, List.forall_mem_cons.mpr ⟨hx, hsettings⟩, by simp, hrest⟩

/-- Reading applies the settings in their order up to one that throws, and
then says how the list of arguments ends. -/
theorem parse_decomposes (hd : Distinct sep options) (isHelp : List α → Bool) (s : σ)
    (args : List (List α)) : ∃ (settings : List (Setting α σ ε)) (rest : List (List α)),
      (∀ x ∈ settings, x.option ∈ options) ∧
      args = settings.flatMap (Setting.args sep) ++ rest ∧ Rest sep options rest ∧
      parse sep options isHelp s args = match settings.foldlM Setting.apply s with
        | .error e => .throws e
        | .ok s => ends isHelp s rest := by
  obtain ⟨settings, rest, hsettings, rfl, hrest⟩ := exists_settings sep options args
  refine ⟨settings, rest, hsettings, rfl, hrest, ?_⟩
  rw [parse_settings hd hsettings]
  cases settings.foldlM Setting.apply s with
  | error e => rfl
  | ok s => exact parse_rest hrest

end Options
