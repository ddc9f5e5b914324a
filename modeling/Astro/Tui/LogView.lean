import Astro.Core.Hex
import Astro.Tui.Keys
import Mathlib.Data.List.DropRight

/-!
# The log panel

Handlers say what they have done in lines of which the last 200 are kept, and
`draw` shows as many as there is room for, behind the scroll position. The
lines are a true account: whoever reads all of them knows the height of the
chain. What is drawn is always a part of the log, and every line can be
scrolled to.
-/

namespace Astro

structure LogLine where
  text : Bytes
  color : Nat
  deriving DecidableEq

/-- How a reader keeps count: a green line tells of one more block, and a
yellow one may tell of the end of them all. -/
def LogLine.tally (height : Nat) (line : LogLine) : Nat :=
  if line.color = 32 then height + 1
  else if line.color = 33 ∧ Astro.text "chain reset" <:+ line.text then 0
  else height

/-- `short_hash` of tui.cpp. -/
def shortHash (hash : Hash256) : Bytes := (toHex hash.bytes).take 10 ++ text "…"

/-- Hashes look alike exactly when their first five bytes agree. -/
theorem shortHash_eq_iff : shortHash a = shortHash b ↔ a.bytes.take 5 = b.bytes.take 5 := by
  have hdigits (hash : Hash256) : (toHex hash.bytes).take 10 = toHex (hash.bytes.take 5) :=
    take_toHex 5 hash.bytes
  rw [shortHash, shortHash, List.append_left_inj, hdigits, hdigits]
  exact ⟨toHex_inj, congrArg toHex⟩

-- ---------------------------------------------------------------------------
-- Messages
-- ---------------------------------------------------------------------------

inductive Message
  | restored
  | started
  | pressG
  | genesisExists
  | genesisAppended
  | genesisFailed
  | cannotAppend
  | blockAppended
  | appendFailed
  | noTip
  | tip (hash : Hash256) (txs : Nat)
  | miningInProgress
  | cannotMine
  | miningStarted (difficultyBits : UInt32)
  | cancelRequested
  | minedAppended (hash : Hash256)
  | minedRejected
  | clearFailed
  | cleared

namespace Message

/-- What is given to `push_log`. -/
def line : Message → LogLine
  | .restored => ⟨text "restored chain from ./data", 36⟩
  | .started => ⟨text "TUI started", 36⟩
  | .pressG => ⟨text "Press G to create genesis", 33⟩
  | .genesisExists => ⟨text "genesis already exists", 33⟩
  | .genesisAppended => ⟨text "genesis appended ✓", 32⟩
  | .genesisFailed => ⟨text "genesis append failed", 31⟩
  | .cannotAppend => ⟨text "cannot append: chain empty (create genesis first)", 33⟩
  | .blockAppended => ⟨text "block appended ✓", 32⟩
  | .appendFailed => ⟨text "append failed (validation error)", 31⟩
  | .noTip => ⟨text "no tip (empty chain)", 33⟩
  | .tip hash txs =>
    ⟨text "tip: h=" ++ shortHash hash ++ text " txs=" ++ text (toString txs), 36⟩
  | .miningInProgress => ⟨text "mining already in progress", 33⟩
  | .cannotMine => ⟨text "cannot mine: chain empty (create genesis first)", 33⟩
  | .miningStarted difficultyBits =>
    ⟨text "mining started (difficulty " ++ text (toString difficultyBits.toNat) ++ text " bits)", 36⟩
  | .cancelRequested => ⟨text "mining cancel requested", 33⟩
  | .minedAppended hash => ⟨text "[✅] mined block appended h=" ++ shortHash hash, 32⟩
  | .minedRejected => ⟨text "[x] mined block rejected (validation failed)", 31⟩
  | .clearFailed => ⟨text "clear store: open failed", 31⟩
  | .cleared => ⟨text "store cleared; chain reset", 33⟩

/-- What a message tells of the height of the chain. -/
def tally (height : Nat) : Message → Nat
  | .genesisAppended | .blockAppended | .minedAppended _ => height + 1
  | .cleared => 0
  | _ => height

end Message

namespace Tui

/-- What can happen at the keyboard and elsewhere, with the keys I, J and K
told apart from the others that the chain knows nothing of. -/
inductive Event
  | inspect
  | scrollDown
  | scrollUp
  | other (label : Label)

def Event.label : Event → Label
  | .other label => label
  | _ => .key .view

/-- What a handler says of its block; an exception leaves it before it can say
anything. -/
def outcomeMessage (good bad : Message) : Except Exn ValidationResult → Option Message
  | .ok result => some (if result.isValid then good else bad)
  | .error _ => none

def clearMessage (truncates : Bool) : Message := if truncates then .cleared else .clearFailed

/-- What is said during a step: one line, or none. -/
def message (E : Env) (t : Tui) : Event → Option Message
  | .inspect => match t.app.chain.tip with
    | none => some .noTip
    | some tip => some (.tip (tip.header.hash E.sha256) tip.transactions.length)
  | .other (.loopHead io) =>
    if !t.running then if t.app.mining.mining then some .cancelRequested else none
    else if t.app.mining.done then
      outcomeMessage (.minedAppended (t.app.mining.minedBlock.header.hash E.sha256)) .minedRejected
        (t.app.handleDone E io).1
    else none
  | .other (.key (.genesis unixTime io)) =>
    if t.app.chain.height > 0 then some .genesisExists
    else outcomeMessage .genesisAppended .genesisFailed (t.app.submit E
      (makeGenesisBlock E.sha256 (text "Astro: Born from bytes.") unixTime) io).1
  | .other (.key (.append signer unixTime io)) =>
    match t.app.chain.tip with
    | none => some .cannotAppend
    | some tip => match signer.signed (App.nextTransfer tip) with
      | .error _ => none
      | .ok transaction => outcomeMessage .blockAppended .appendFailed (t.app.submit E
          (t.app.chain.buildBlockFromTransactions E.sha256 [transaction] unixTime) io).1
  | .other (.key (.mine _ _)) =>
    if t.app.mining.mining then some .miningInProgress
    else if t.app.chain.tip.isNone then some .cannotMine
    else some (.miningStarted t.app.uiDifficultyBits)
  | .other (.key (.clear truncates)) =>
    if t.app.mining.mining then none else some (clearMessage truncates)
  | .other .join => match t.pc with
    | .joining truncates => some (clearMessage truncates)
    | _ => none
  | _ => none

-- ---------------------------------------------------------------------------
-- The account
-- ---------------------------------------------------------------------------

/-- The height after a step, as told by what is said in it. -/
def told (height : Nat) : Option Message → Nat
  | none => height
  | some message => message.tally height

theorem told_outcome {app : App} {good bad : Message} (hgood : ∀ n, good.tally n = n + 1)
    (hbad : ∀ n, bad.tally n = n) (block : Block) (io : AppendTransfers) :
    told app.chain.height (outcomeMessage good bad (app.submit E block io).1) =
      (app.submit E block io).2.chain.height := by
  rcases Chain.appendAndStore_cases E app.chain block io app.store with
    ⟨-, -, h⟩ | ⟨-, -, h⟩ | ⟨-, outcome, hno, h⟩
  · simp [App.submit, h, outcomeMessage, told, hgood, Chain.push, Chain.height]
  · simp [App.submit, h, outcomeMessage, told, hbad]
  · cases outcome with
    | error e => simp [App.submit, h, outcomeMessage, told]
    | ok result =>
      have hinvalid : result.isValid = false := by simpa [Acknowledged] using hno
      simp [App.submit, h, outcomeMessage, told, hbad, hinvalid]

theorem told_clear (truncates : Bool) (app : App) :
    told app.chain.height (some (clearMessage truncates)) =
      (app.truncateLog truncates).chain.height := by
  cases truncates <;> rfl

theorem told_loopHead (E : Env) (io : AppendTransfers) (t : Tui) :
    told t.app.chain.height (t.message E (.other (.loopHead io))) =
      (t.loopHead E io).app.chain.height := by
  cases hrunning : t.running with
  | false =>
    simp only [message, loopHead, hrunning, Bool.not_false, if_true, stopMining_chain]
    cases t.app.mining.mining <;> rfl
  | true =>
    cases hdone : t.app.mining.done with
    | false => simp [message, loopHead, hrunning, hdone, told]
    | true =>
      simp only [message, loopHead, hrunning, hdone, Bool.not_true, Bool.false_eq_true, if_false,
        if_true, conclude_app]
      exact told_outcome (fun _ => rfl) (fun _ => rfl) t.app.mining.minedBlock io

theorem told_genesis (E : Env) (unixTime : UInt64) (io : AppendTransfers) (t : Tui) :
    told t.app.chain.height (t.message E (.other (.key (.genesis unixTime io)))) =
      (t.app.doGenesis E unixTime io).2.chain.height := by
  by_cases hheight : t.app.chain.height > 0
  · simp only [message, App.doGenesis, if_pos hheight]
    rfl
  · simp only [message, App.doGenesis, if_neg hheight]
    exact told_outcome (fun _ => rfl) (fun _ => rfl) _ io

theorem told_append (E : Env) (signer : Signer) (unixTime : UInt64) (io : AppendTransfers)
    (t : Tui) : told t.app.chain.height (t.message E (.other (.key (.append signer unixTime io)))) =
      (t.app.doAppendSignedBlock E signer unixTime io).2.chain.height := by
  cases htip : t.app.chain.tip with
  | none => simp [message, htip, App.doAppendSignedBlock, told, Message.tally]
  | some tip =>
    cases hsigned : signer.signed (App.nextTransfer tip) with
    | error e => simp [App.doAppendSignedBlock_error htip hsigned, message, htip, hsigned, told]
    | ok tx =>
      simp only [App.doAppendSignedBlock_ok htip hsigned, message, htip, hsigned]
      exact told_outcome (fun _ => rfl) (fun _ => rfl) _ io

theorem told_mine (E : Env) (signer : Signer) (clock : Nat → UInt64) (t : Tui) :
    told t.app.chain.height (t.message E (.other (.key (.mine signer clock)))) =
      t.app.chain.height := by
  simp only [message]
  repeat' split
  all_goals rfl

theorem told_key (E : Env) (t : Tui) (key : Key) :
    told t.app.chain.height (t.message E (.other (.key key))) =
      (t.pressKey E key).app.chain.height := by
  cases key with
  | quit => rfl
  | genesis unixTime io =>
    rw [pressKey, conclude_app]
    exact told_genesis E unixTime io t
  | append signer unixTime io =>
    rw [pressKey, conclude_app]
    exact told_append E signer unixTime io t
  | mine signer clock =>
    rw [pressKey, conclude_app, startMining_chain]
    exact told_mine E signer clock t
  | easier =>
    rw [pressKey]
    split <;> rfl
  | harder =>
    rw [pressKey]
    split <;> rfl
  | clear truncates =>
    cases hmining : t.app.mining.mining with
    | true => simp [message, pressKey, hmining, told]
    | false =>
      simp only [message, pressKey, hmining, Bool.false_eq_true, if_false]
      exact told_clear truncates t.app
  | view => rfl

theorem step_join {t t' : Tui} (h : t.step E .join = some t') :
    (∃ truncates, t.pc = .joining truncates ∧ t' = t.clearJoined truncates) ∨
      t.pc = .quitting ∧ t' = t.quitJoined := by
  unfold step at h
  split at h <;> simp_all

/-- Steps that neither submit a block nor clear the log keep the height. -/
theorem height_of_step {t t' : Tui} (hs : t.step E label = some t')
    (hsubmits : ∀ c block io, ¬Submits E t label c block io) (hclears : ¬Clears t label) :
    t'.app.chain.height = t.app.chain.height := by
  cases effect_of_step hs with
  | keeps hchain _ _ => rw [hchain]
  | submits c block io h _ _ => exact absurd h (hsubmits c block io)
  | clears h _ _ _ => exact absurd h hclears

/-- Whoever hears what is said in a step knows the height behind it. -/
theorem told_step {t t' : Tui} (event : Event) (hs : t.step E event.label = some t') :
    told t.app.chain.height (t.message E event) = t'.app.chain.height := by
  cases event with
  | inspect =>
    rw [step_key hs, message]
    split <;> rfl
  | scrollDown => rw [step_key hs]; rfl
  | scrollUp => rw [step_key hs]; rfl
  | other label =>
    cases label with
    | loopHead io => rw [step_loopHead hs]; exact told_loopHead E io t
    | key key => rw [step_key hs]; exact told_key E t key
    | join =>
      rcases step_join hs with ⟨truncates, hpc, rfl⟩ | ⟨hpc, rfl⟩
      · simp only [message, hpc]
        exact told_clear truncates
          { t.app with mining.worker := none, mining.mining := false }
      · simp only [message, hpc]
        rfl
    | _ => exact (height_of_step hs (fun _ _ _ h => nomatch h) (fun h => h)).symm

end Tui

-- ---------------------------------------------------------------------------
-- The panel
-- ---------------------------------------------------------------------------

structure LogPanel where
  log : List LogLine := []
  logScroll : Nat := 0
  deriving DecidableEq

namespace LogPanel

def maxLog : Nat := 200

/-- The line in front of which `push_log` has put the time of day. -/
def stamped (time : Bytes) (line : LogLine) : LogLine :=
  { line with text := text "[" ++ time ++ text "] " ++ line.text }

def pushLog (time : Bytes) (line : LogLine) (panel : LogPanel) : LogPanel :=
  let log := panel.log ++ [stamped time line]
  { panel with log := if log.length > maxLog then log.drop (log.length - maxLog) else log }

/-- `do_clear_store` scrolls back before it says that it has cleared. -/
def say (time : Bytes) (message : Message) (panel : LogPanel) : LogPanel :=
  match message with
  | .cleared => { panel with logScroll := 0 }.pushLog time message.line
  | _ => panel.pushLog time message.line

def scrollDown (panel : LogPanel) : LogPanel :=
  if panel.logScroll + 1 < panel.log.length then { panel with logScroll := panel.logScroll + 1 }
  else panel

def scrollUp (panel : LogPanel) : LogPanel :=
  if panel.logScroll > 0 then { panel with logScroll := panel.logScroll - 1 } else panel

def scrolled (panel : LogPanel) : Tui.Event → LogPanel
  | .scrollDown => panel.scrollDown
  | .scrollUp => panel.scrollUp
  | _ => panel

-- ---------------------------------------------------------------------------
-- Drawing
-- ---------------------------------------------------------------------------

/-- The height of the panels above the log, of which there is a least. -/
def bodyHeight (rows : Int) : Int :=
  let height := rows - 3 - 10 - 2
  if height < 6 then 6 else height

/-- The rows inside the box of the log; there are none when the window is too low. -/
def logRows (rows : Int) : Int := rows - (3 + 1 + bodyHeight rows + 1) - 1

/-- The first line that `draw` shows. The rows are turned into a `size_t`. -/
def topIndex (rows : Int) (panel : LogPanel) : Nat :=
  let total := panel.log.length
  let maxRows := (logRows rows % 2 ^ 64).toNat
  if panel.logScroll ≥ total then 0
  else total - min total ((panel.logScroll + maxRows) % 2 ^ 64)

/-- The loop that draws the lines, each before it looks whether there is room. -/
def drawLines (logRows : Int) (rowIndex : Nat) : List LogLine → List LogLine
  | [] => []
  | line :: lines =>
    line :: if (rowIndex + 1 : Nat) ≥ logRows then [] else drawLines logRows (rowIndex + 1) lines

def shown (rows : Int) (panel : LogPanel) : List LogLine :=
  drawLines (logRows rows) 0 (panel.log.drop (panel.topIndex rows))

theorem drawLines_eq_take (logRows : Int) (rowIndex : Nat) (lines : List LogLine) :
    drawLines logRows rowIndex lines = lines.take (max 1 (logRows - rowIndex).toNat) := by
  induction lines generalizing rowIndex with
  | nil => simp [drawLines]
  | cons line lines ih =>
    unfold drawLines
    split
    next hfull =>
      have hroom : max 1 (logRows - rowIndex).toNat = 1 := by omega
      rw [hroom, List.take_succ_cons, List.take_zero]
    next hroom =>
      have hmore : max 1 (logRows - rowIndex).toNat =
          max 1 (logRows - (rowIndex + 1 : Nat)).toNat + 1 := by omega
      rw [ih, hmore, List.take_succ_cons]

/-- How many lines there is room for. -/
def room (rows : Int) : Nat := (min 9 (rows - 12)).toNat

theorem logRows_eq_room (hrows : 13 ≤ rows) : logRows rows = room rows := by
  simp only [logRows, bodyHeight, room]
  split <;> omega

/-- What is shown starts as far above the newest line as was scrolled, or at
the oldest line. -/
theorem shown_eq (hrows : 13 ≤ rows) {panel : LogPanel} (hlog : panel.log.length ≤ maxLog)
    (hscroll : panel.logScroll ≤ panel.log.length - 1) :
    panel.shown rows =
      (panel.log.drop (panel.log.length - (panel.logScroll + room rows))).take (room rows) := by
  have hroom : 1 ≤ room rows ∧ room rows ≤ 9 := by
    unfold room
    omega
  have hlog : panel.log.length ≤ 200 := hlog
  have htake : max 1 ((room rows : Int) - (0 : Nat)).toNat = room rows := by omega
  rw [shown, drawLines_eq_take, logRows_eq_room hrows, htake]
  by_cases hempty : panel.log = []
  · simp [hempty]
  have hpos := List.length_pos_iff.mpr hempty
  have hmod : ((room rows : Int) % 2 ^ 64).toNat = room rows := by omega
  have htop : panel.topIndex rows = panel.log.length - (panel.logScroll + room rows) := by
    unfold topIndex
    rw [logRows_eq_room hrows, hmod, if_neg (by omega), Nat.mod_eq_of_lt (by omega)]
    omega
  rw [htop]

/-- Where there is no room, one line is drawn all the same, or none. -/
theorem shown_low (hrows : rows < 13) (panel : LogPanel) : (panel.shown rows).length ≤ 1 := by
  have hnone : logRows rows ≤ 0 := by
    simp only [logRows, bodyHeight]
    split <;> omega
  have hone : max 1 (logRows rows - (0 : Nat)).toNat = 1 := by omega
  rw [shown, drawLines_eq_take, hone]
  exact List.length_take_le ..

-- ---------------------------------------------------------------------------
-- The lines that are kept
-- ---------------------------------------------------------------------------

theorem pushLog_log (time : Bytes) (line : LogLine) (panel : LogPanel) :
    (panel.pushLog time line).log = (panel.log ++ [stamped time line]).rtake maxLog := by
  simp only [pushLog, List.rtake]
  split
  · rfl
  next hfew => rw [Nat.sub_eq_zero_of_le (by omega), List.drop_zero]

theorem say_log (time : Bytes) (message : Message) (panel : LogPanel) :
    (panel.say time message).log = (panel.log ++ [stamped time message.line]).rtake maxLog := by
  cases message <;> exact pushLog_log ..

theorem tally_of_color {line : LogLine} (hgreen : line.color ≠ 32) (hyellow : line.color ≠ 33) :
    line.tally height = height := (if_neg hgreen).trans (if_neg fun h => hyellow h.1)

/-- A line that does not end in a t, whatever the time of day. -/
theorem tally_of_ends {line : LogLine} (hgreen : line.color ≠ 32)
    (hends : line.text ≠ [] ∧ line.text.getLast? ≠ some 116) :
    (stamped time line).tally height = height := by
  refine (if_neg hgreen).trans (if_neg fun h => hends.2 ?_)
  obtain ⟨front, hfront⟩ := h.2
  have hlast := congrArg List.getLast? hfront
  have hreset : (text "chain reset").getLast? = some 116 := by decide
  rw [List.getLast?_append, hreset, stamped, List.getLast?_append,
    List.getLast?_eq_some_getLast hends.1] at hlast
  rw [List.getLast?_eq_some_getLast hends.1]
  exact hlast.symm

/-- What a line tells is what the message told. -/
theorem tally_stamped (time : Bytes) (message : Message) :
    (stamped time message.line).tally height = message.tally height := by
  cases message with
  | genesisAppended | blockAppended | minedAppended => rfl
  | cleared =>
    have hline : text "store cleared; chain reset" =
        text "store cleared; " ++ text "chain reset" := by decide
    refine (if_neg (by simp [stamped, Message.line])).trans (if_pos ⟨rfl, ?_⟩)
    simp only [stamped, Message.line, hline, ← List.append_assoc]
    exact List.suffix_append ..
  | pressG | genesisExists | cannotAppend | noTip | miningInProgress | cannotMine
  | cancelRequested => exact tally_of_ends (by decide) (by decide)
  | _ => exact tally_of_color (by simp [stamped, Message.line]) (by simp [stamped, Message.line])

theorem say_logScroll (time : Bytes) (message : Message) (panel : LogPanel) :
    (panel.say time message).logScroll ≤ panel.logScroll := by
  cases message <;> first | exact Nat.le_refl _ | exact Nat.zero_le _

theorem rtake_rtake_concat (kept : Nat) (lines : List LogLine) (line : LogLine) :
    (lines.rtake kept ++ [line]).rtake kept = (lines ++ [line]).rtake kept := by
  cases kept with
  | zero => simp
  | succ kept =>
    rw [List.rtake_concat_succ, List.rtake_concat_succ]
    simp [List.rtake_eq_reverse_take_reverse, List.take_take]

theorem length_rtake (kept : Nat) (lines : List LogLine) :
    (lines.rtake kept).length = min kept lines.length := by
  rw [List.rtake, List.length_drop]
  omega

end LogPanel

-- ---------------------------------------------------------------------------
-- The screen
-- ---------------------------------------------------------------------------

structure Screen where
  tui : Tui
  panel : LogPanel := {}
  /-- All lines since the start; no step looks at it. -/
  lines : List LogLine := []

namespace Screen

def say (time : Bytes) (message : Message) (s : Screen) : Screen :=
  { s with
    panel := s.panel.say time message
    lines := s.lines ++ [LogPanel.stamped time message.line] }

/-- A step of the program, and what is said in it. -/
def step (E : Env) (s : Screen) : Bytes × Tui.Event → Option Screen
  | (time, event) => (s.tui.step E event.label).map fun tui =>
    let next := { s with tui, panel := s.panel.scrolled event }
    match s.tui.message E event with
    | none => next
    | some message => next.say time message

/-- The main thread before its loop; nothing is said if the chain cannot be
restored. -/
def start (E : Env) (store : BlockStore) (times : Nat → Bytes) : Screen :=
  let screen : Screen := { tui := .start E store }
  match screen.tui.pc with
  | .stopped _ => screen
  | _ =>
    let screen := if screen.tui.app.chain.height > 0 then screen.say (times 0) .restored else screen
    (screen.say (times 1) .started).say (times 2) .pressG

/-- The height that a reader of all lines knows who knew it at the start. -/
def told (first : Nat) (s : Screen) : Nat := s.lines.foldl LogLine.tally first

/-- What the log keeps of all that has been said, and what it tells. -/
structure Truthful (first : Nat) (s : Screen) : Prop where
  kept : s.panel.log = s.lines.rtake LogPanel.maxLog
  height : s.told first = s.tui.app.chain.height
  inside : s.panel.logScroll ≤ s.panel.log.length - 1

theorem Truthful.length_le (h : Truthful first s) : s.panel.log.length ≤ LogPanel.maxLog := by
  rw [h.kept, LogPanel.length_rtake]
  exact Nat.min_le_left ..

theorem Truthful.say {next : Screen} (h : Truthful first s) (hlines : next.lines = s.lines)
    (hlog : next.panel.log = s.panel.log)
    (hscroll : next.panel.logScroll ≤ s.panel.log.length - 1) (time : Bytes) (message : Message)
    (htold : message.tally s.tui.app.chain.height = next.tui.app.chain.height) :
    Truthful first (next.say time message) := by
  refine ⟨?_, ?_, ?_⟩
  · simp only [Screen.say, LogPanel.say_log, hlog, hlines, h.kept, LogPanel.rtake_rtake_concat]
  · rw [told, Screen.say, hlines, List.foldl_append, ← told, h.height]
    exact (LogPanel.tally_stamped time message).trans htold
  · have hback := LogPanel.say_logScroll time message next.panel
    have hlength := h.length_le
    simp only [Screen.say, LogPanel.say_log, LogPanel.length_rtake, List.length_append, hlog]
    simp only [LogPanel.maxLog, List.length_singleton] at *
    omega

/-- A message that leaves the height as it is. -/
theorem Truthful.remark (h : Truthful first s) (time : Bytes) (message : Message)
    (hremark : ∀ n, message.tally n = n) : Truthful first (s.say time message) :=
  h.say rfl rfl h.inside time message (hremark _)

theorem scrolled_log (panel : LogPanel) (event : Tui.Event) :
    (panel.scrolled event).log = panel.log := by
  cases event with
  | scrollDown =>
    simp only [LogPanel.scrolled, LogPanel.scrollDown]
    split <;> rfl
  | scrollUp =>
    simp only [LogPanel.scrolled, LogPanel.scrollUp]
    split <;> rfl
  | _ => rfl

theorem scrolled_inside {panel : LogPanel} (h : panel.logScroll ≤ panel.log.length - 1)
    (event : Tui.Event) : (panel.scrolled event).logScroll ≤ panel.log.length - 1 := by
  cases event with
  | scrollDown =>
    simp only [LogPanel.scrolled, LogPanel.scrollDown]
    split
    · dsimp only
      omega
    · exact h
  | scrollUp =>
    simp only [LogPanel.scrolled, LogPanel.scrollUp]
    split
    · dsimp only
      omega
    · exact h
  | _ => exact h

theorem start_truthful (E : Env) (store : BlockStore) (times : Nat → Bytes) :
    Truthful (Tui.start E store).app.chain.height (start E store times) := by
  have hsilent : Truthful (Tui.start E store).app.chain.height { tui := .start E store } :=
    ⟨(List.rtake_nil LogPanel.maxLog).symm, rfl, Nat.le_refl _⟩
  simp only [start]
  split
  · exact hsilent
  · have hbegun {s : Screen} (h : Truthful (Tui.start E store).app.chain.height s) :
        Truthful (Tui.start E store).app.chain.height
          ((s.say (times 1) .started).say (times 2) .pressG) :=
      (h.remark _ _ fun _ => rfl).remark _ _ fun _ => rfl
    split
    · exact hbegun (hsilent.remark _ _ fun _ => rfl)
    · exact hbegun hsilent

theorem step_truthful {s s' : Screen} (h : Truthful first s) (hs : s.step E turn = some s') :
    Truthful first s' := by
  obtain ⟨time, event⟩ := turn
  obtain ⟨tui, htui, rfl⟩ := Option.map_eq_some_iff.mp hs
  have htold := Tui.told_step event htui
  have hinside := scrolled_inside h.inside event
  have hlog := scrolled_log s.panel event
  cases hmessage : s.tui.message E event with
  | none =>
    rw [hmessage] at htold
    exact ⟨hlog.trans h.kept, h.height.trans htold, hlog.symm ▸ hinside⟩
  | some message =>
    rw [hmessage] at htold
    have hlines : ({ s with tui, panel := s.panel.scrolled event } : Screen).lines = s.lines := rfl
    exact h.say hlines hlog hinside time message htold

/-- A state that some interleaving reaches. -/
def Reachable (E : Env) (store : BlockStore) (times : Nat → Bytes) : Screen → Prop :=
  Machine.Run (step E) (fun _ _ => True) (start E store times)

theorem Reachable.truthful (h : Reachable E store times s) :
    Truthful (Tui.start E store).app.chain.height s :=
  Machine.Run.invariant h (start_truthful E store times) fun _ _ _ hs _ => step_truthful hs

-- ---------------------------------------------------------------------------
-- Scrolling
-- ---------------------------------------------------------------------------

/-- Nothing but J and K. -/
def Scrolls (_ : Screen) (turn : Bytes × Tui.Event) : Prop :=
  turn.2 = .scrollDown ∨ turn.2 = .scrollUp

def scrollTo (s : Screen) (logScroll : Nat) : Screen := { s with panel.logScroll := logScroll }

theorem step_scrollDown {s : Screen} (hpc : s.tui.pc = .keys) (h : k + 1 < s.panel.log.length) :
    (s.scrollTo k).step E ([], .scrollDown) = some (s.scrollTo (k + 1)) := by
  simp [step, scrollTo, Tui.Event.label, Tui.step, hpc, Tui.pressKey, Tui.message,
    LogPanel.scrolled, LogPanel.scrollDown, h]

theorem step_scrollUp {s : Screen} (hpc : s.tui.pc = .keys) :
    (s.scrollTo (k + 1)).step E ([], .scrollUp) = some (s.scrollTo k) := by
  simp [step, scrollTo, Tui.Event.label, Tui.step, hpc, Tui.pressKey, Tui.message,
    LogPanel.scrolled, LogPanel.scrollUp]

theorem run_to_zero {s : Screen} (hpc : s.tui.pc = .keys) (k : Nat) :
    Machine.Run (step E) Scrolls (s.scrollTo k) (s.scrollTo 0) := by
  induction k with
  | zero => exact .refl
  | succ k ih => exact (Machine.Run.refl.step (.inr rfl) (step_scrollUp hpc)).trans ih

theorem run_from_zero {s : Screen} (hpc : s.tui.pc = .keys)
    (hk : k ≤ s.panel.log.length - 1) :
    Machine.Run (step E) Scrolls (s.scrollTo 0) (s.scrollTo k) := by
  induction k with
  | zero => exact .refl
  | succ k ih => exact (ih (by omega)).step (.inl rfl) (step_scrollDown hpc (by omega))

/-- The keys reach every position inside the log. -/
theorem run_scrollTo {s : Screen} (hpc : s.tui.pc = .keys) (hk : k ≤ s.panel.log.length - 1) :
    Machine.Run (step E) Scrolls s (s.scrollTo k) :=
  (run_to_zero hpc s.panel.logScroll).trans (run_from_zero hpc hk)

/-- Some position shows the line. -/
theorem Truthful.shows (h : Truthful first s) (hrows : 13 ≤ rows) (hline : line ∈ s.panel.log) :
    ∃ k ≤ s.panel.log.length - 1, line ∈ (s.scrollTo k).panel.shown rows := by
  obtain ⟨i, hi, rfl⟩ := List.mem_iff_getElem.mp hline
  refine ⟨s.panel.log.length - 1 - i, Nat.sub_le .., ?_⟩
  have hroom : 1 ≤ LogPanel.room rows := by
    unfold LogPanel.room
    omega
  have hshown : (s.scrollTo (s.panel.log.length - 1 - i)).panel.shown rows = _ :=
    LogPanel.shown_eq hrows h.length_le (Nat.sub_le ..)
  rw [hshown, List.mem_iff_getElem]
  simp only [scrollTo]
  refine ⟨i - (s.panel.log.length - (s.panel.log.length - 1 - i + LogPanel.room rows)), ?_, ?_⟩
  · rw [List.length_take, List.length_drop]
    omega
  · rw [List.getElem_take, List.getElem_drop]
    congr 1
    omega

/-- In whatever state the program is, the log is the last 200 lines of a true
account of the chain. In a window of 13 rows or more, a part of the log is
shown that fills the room there is, the newest lines unless someone scrolled,
and the keys J and K alone bring every line of it to sight; a lower window
shows one line at most. -/
theorem log_view (E : Env) (store : BlockStore) (times : Nat → Bytes) (s : Screen)
    (h : Reachable E store times s) :
    s.panel.log = s.lines.rtake 200 ∧
    s.told (Tui.start E store).app.chain.height = s.tui.app.chain.height ∧
    (∀ rows < 13, (s.panel.shown rows).length ≤ 1) ∧
    ∀ rows, 13 ≤ rows →
      (s.panel.shown rows).length = min (LogPanel.room rows) s.panel.log.length ∧
      s.panel.shown rows <:+: s.panel.log ∧
      (s.panel.logScroll = 0 → s.panel.shown rows = s.panel.log.rtake (LogPanel.room rows)) ∧
      (s.tui.pc = .keys → ∀ line ∈ s.panel.log, ∃ k,
        Machine.Run (step E) Scrolls s (s.scrollTo k) ∧ line ∈ (s.scrollTo k).panel.shown rows) := by
  have htruthful := h.truthful
  refine ⟨htruthful.kept, htruthful.height, fun rows hrows => LogPanel.shown_low hrows _,
    fun rows hrows => ?_⟩
  have hinside := htruthful.inside
  have hshown := LogPanel.shown_eq hrows htruthful.length_le hinside
  refine ⟨?_, ?_, ?_, ?_⟩
  · rw [hshown, List.length_take, List.length_drop]
    omega
  · rw [hshown]
    exact (List.take_prefix ..).isInfix.trans (List.drop_suffix ..).isInfix
  · intro hnewest
    rw [hshown, hnewest, Nat.zero_add, List.rtake]
    refine List.take_of_length_le ?_
    rw [List.length_drop]
    omega
  · intro hpc line hline
    obtain ⟨k, hk, hsight⟩ := htruthful.shows hrows hline
    exact ⟨k, run_scrollTo hpc hk, hsight⟩

/-- A first block, a look at it and up the log, and an attempt to make another
first block. -/
def sampleTurns : List (Bytes × Tui.Event) :=
  [(text "10:00:00", .other (.loopHead (.buffered none none))),
    (text "10:00:01", .other sampleGenesisKey), (text "10:00:02", .inspect),
    (text "10:00:03", .scrollDown), (text "10:00:04", .other sampleGenesisKey)]

theorem log_view_sample : ∃ s ∈ Machine.runLabels (step sampleEnv) (fun _ _ => True)
      (start sampleEnv {} fun _ => text "10:00:00") sampleTurns,
    s.panel.logScroll = 1 ∧ s.told 0 = 1 ∧ (s.panel.shown 24).length = 5 := by
  have hrun : ∃ s ∈ Machine.runLabels (step sampleEnv) (fun _ _ => True)
      (start sampleEnv {} fun _ => text "10:00:00") sampleTurns,
      s.panel.logScroll = 1 ∧ s.tui.app.chain.height = 1 ∧ s.panel.log.length = 5 := by
    decide +kernel
  obtain ⟨s, hs, hscroll, hheight, hlength⟩ := hrun
  obtain ⟨-, htold, -, hview⟩ := log_view sampleEnv {} _ s (Machine.Run.of_runLabels .refl hs)
  have hshown := (hview 24 (by decide)).1
  rw [hlength] at hshown
  have hfirst : (Tui.start sampleEnv {}).app.chain.height = 0 := by decide +kernel
  rw [hfirst] at htold
  exact ⟨s, hs, hscroll, htold.trans hheight, hshown⟩

end Screen

end Astro
