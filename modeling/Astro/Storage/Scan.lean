import Astro.Library.FramedLog
import Astro.Storage.Codec

/-!
# What the log reader accepts

A record is a header with the right magic, version and kind and a length, as
many bytes of payload, from which a block decodes, and the SHA-256 of them.
`load_all_blocks` returns the blocks of the longest prefix of the file that is
a concatenation of records, as long as the scan does not meet one of two
things on its way (`Raises`): a length for which no vector can be had, or a
payload with the right checksum that does not decode.
-/

namespace Astro

open FileStream
open FramedLog
open LittleEndian (toLE ofLE)

-- ---------------------------------------------------------------------------
-- Record headers
-- ---------------------------------------------------------------------------

namespace RecordHeader

def bytes (header : RecordHeader) : Bytes :=
  toLE 4 header.magic.toNat ++ (toLE 8 header.version.toNat ++ (toLE 2 header.kind.toNat ++
    toLE 8 header.length.toNat))

@[simp] theorem length_bytes (header : RecordHeader) : header.bytes.length = 22 := by
  simp [bytes]

def ofLength (n : UInt64) : RecordHeader := ⟨MAGIC, VER, KIND_BLOCK, n⟩

theorem bytes_inj {header header' : RecordHeader} (h : header.bytes = header'.bytes) :
    header = header' := by
  obtain ⟨hmagic, h⟩ := List.append_inj h (by simp)
  obtain ⟨hversion, h⟩ := List.append_inj h (by simp)
  obtain ⟨hkind, hlength⟩ := List.append_inj h (by simp)
  replace hmagic := LittleEndian.toLE_inj (UInt32.toNat_lt _) (UInt32.toNat_lt _) hmagic
  replace hversion := LittleEndian.toLE_inj (UInt64.toNat_lt _) (UInt64.toNat_lt _) hversion
  replace hkind := LittleEndian.toLE_inj (UInt16.toNat_lt _) (UInt16.toNat_lt _) hkind
  replace hlength := LittleEndian.toLE_inj (UInt64.toNat_lt _) (UInt64.toNat_lt _) hlength
  cases header
  cases header'
  simp only [mk.injEq]
  exact ⟨UInt32.toNat_inj.mp hmagic, UInt64.toNat_inj.mp hversion, UInt16.toNat_inj.mp hkind,
    UInt64.toNat_inj.mp hlength⟩

theorem bytes_append_inj {header header' : RecordHeader}
    (h : header.bytes ++ tail = header'.bytes ++ tail') : header = header' ∧ tail = tail' := by
  obtain ⟨hbytes, htail⟩ := List.append_inj h (by simp)
  exact ⟨bytes_inj hbytes, htail⟩

theorem ofLength_inj {n n' : UInt64} (h : ofLength n = ofLength n') : n = n' :=
  (RecordHeader.mk.inj h).2.2.2

theorem ofLength_iff {header : RecordHeader} : (∃ n, header = ofLength n) ↔
    ¬(header.magic ≠ MAGIC ∨ header.version ≠ VER ∨ header.kind ≠ KIND_BLOCK) := by
  simp only [not_or, Decidable.not_not]
  constructor
  · rintro ⟨n, rfl⟩
    exact ⟨rfl, rfl, rfl⟩
  · rintro ⟨hmagic, hversion, hkind⟩
    exact ⟨header.length, by rw [ofLength, ← hmagic, ← hversion, ← hkind]⟩

theorem exists_bytes {s : Bytes} (h : 22 ≤ s.length) :
    ∃ (header : RecordHeader) (rest : Bytes), s = header.bytes ++ rest := by
  obtain ⟨magic, s, hmagic, rfl⟩ := LittleEndian.exists_toLE (n := 4) (by omega : 4 ≤ s.length)
  simp only [List.length_append, LittleEndian.length_toLE] at h
  obtain ⟨version, s, hversion, rfl⟩ := LittleEndian.exists_toLE (by omega : 8 ≤ s.length)
  simp only [List.length_append, LittleEndian.length_toLE] at h
  obtain ⟨kind, s, hkind, rfl⟩ := LittleEndian.exists_toLE (by omega : 2 ≤ s.length)
  simp only [List.length_append, LittleEndian.length_toLE] at h
  obtain ⟨length, s, hlength, rfl⟩ := LittleEndian.exists_toLE (by omega : 8 ≤ s.length)
  refine ⟨⟨UInt32.ofNat magic, UInt64.ofNat version, UInt16.ofNat kind, UInt64.ofNat length⟩, s, ?_⟩
  simp only [bytes, UInt32.toNat_ofNat_of_lt' hmagic, UInt64.toNat_ofNat_of_lt' hversion,
    UInt16.toNat_ofNat_of_lt' hkind, UInt64.toNat_ofNat_of_lt' hlength, List.append_assoc]

end RecordHeader

namespace BlockStore

@[simp] theorem length_uninitBytes : (uninitBytes E size).length = size := by simp [uninitBytes]

theorem readMemory_append (h : xs.length = size) :
    readMemory E size { rest := xs ++ tail } = (ofLE xs, { rest := tail }) := by
  simp only [readMemory, IFStream.read_append (h.trans length_uninitBytes.symm)]

theorem readFields_bytes (E : Env) (header : RecordHeader) (tail : Bytes) :
    readFields E { rest := header.bytes ++ tail } = some (header, { rest := tail }) := by
  have hread (size v : Nat) (rest : Bytes) (hv : v < 256 ^ size) :
      readMemory E size { rest := toLE size v ++ rest } = (v, { rest }) := by
    rw [readMemory_append LittleEndian.length_toLE, LittleEndian.ofLE_toLE_of_lt hv]
  simp only [readFields, RecordHeader.bytes, List.append_assoc, hread 4 _ _ header.magic.toNat_lt,
    hread 8 _ _ header.version.toNat_lt, hread 2 _ _ header.kind.toNat_lt,
    hread 8 _ _ header.length.toNat_lt, UInt32.ofNat_toNat, UInt64.ofNat_toNat,
    UInt16.ofNat_toNat, Bool.false_eq_true, if_false]

theorem readFields_short (h : s.length < 22) : readFields E { rest := s } = none := by
  have hsize (size : Nat) (s : IFStream UInt8) (hs : (readMemory E size s).2.failed = false) :
      (readMemory E size s).2.rest.length + size ≤ s.rest.length := by
    have hlen := IFStream.length_rest_of_read hs
    rwa [length_uninitBytes] at hlen
  unfold readFields
  dsimp only
  split
  · rfl
  next hmagic =>
    split
    · rfl
    next hlength =>
      -- Without a failure the four reads have taken 22 bytes.
      exfalso
      simp only [Bool.not_eq_true] at hmagic hlength
      have hkind := IFStream.not_failed_of_read hlength
      have hversion := IFStream.not_failed_of_read hkind
      have h1 := hsize 4 { rest := s } hmagic
      have h2 := hsize 8 _ hversion
      have h3 := hsize 2 _ hkind
      have h4 := hsize 8 _ hlength
      dsimp only at h1
      omega

-- ---------------------------------------------------------------------------
-- Records
-- ---------------------------------------------------------------------------

/-- The record of a payload, as `append_block` writes it. -/
def recordBytes (sha256 : Bytes → Hash256) (payload : Bytes) : Bytes :=
  (RecordHeader.ofLength (UInt64.ofNat payload.length)).bytes ++ (payload ++ (sha256 payload).bytes)

/-- A well-formed record, and the block that its payload decodes to. -/
def Record (sha256 : Bytes → Hash256) (s : Bytes) (block : Block) : Prop :=
  ∃ payload, payload.length < 2 ^ 64 ∧ decodePayload (fun _ => true) payload = .ok block ∧
    s = recordBytes sha256 payload

theorem length_recordBytes : (recordBytes sha256 payload).length = 22 + payload.length + 32 := by
  simp [recordBytes, (sha256 payload).size_eq, Nat.add_assoc]

theorem header_eq_recordBytes {header : RecordHeader} (hp : payload.length < 2 ^ 64)
    (h : header.bytes ++ tail = recordBytes sha256 payload ++ rest) :
    ∃ n, header = .ofLength n ∧ payload.length = n.toNat ∧
      tail = payload ++ ((sha256 payload).bytes ++ rest) := by
  simp only [recordBytes, List.append_assoc] at h
  obtain ⟨rfl, rfl⟩ := RecordHeader.bytes_append_inj h
  exact ⟨_, rfl, (UInt64.toNat_ofNat_of_lt' hp).symm, rfl⟩

theorem recordBytes_of_length {n : UInt64} (hp : payload.length = n.toNat) :
    (RecordHeader.ofLength n).bytes ++ (payload ++ ((sha256 payload).bytes ++ rest)) =
      recordBytes sha256 payload ++ rest := by
  simp [recordBytes, hp]

theorem recordBytes_append_inj (hp : payload.length < 2 ^ 64) (hp' : payload'.length < 2 ^ 64)
    (h : recordBytes sha256 payload ++ t = recordBytes sha256 payload' ++ t') :
    payload = payload' ∧ t = t' := by
  rw [recordBytes, List.append_assoc] at h
  obtain ⟨n, hn, hlen, htail⟩ := header_eq_recordBytes hp' h
  have hlength : payload.length = payload'.length := by
    rw [hlen, ← RecordHeader.ofLength_inj hn, UInt64.toNat_ofNat_of_lt' hp]
  rw [List.append_assoc] at htail
  obtain ⟨rfl, htail⟩ := List.append_inj htail hlength
  exact ⟨rfl, List.append_cancel_left htail⟩

theorem record_delimited (sha256 : Bytes → Hash256) : Delimited (Record sha256) where
  ne_nil := by
    rintro s block ⟨payload, -, -, rfl⟩ h
    have hlen := congrArg List.length h
    simp [length_recordBytes] at hlen
  unique := by
    rintro s block s' block' t t' ⟨payload, hp, hd, rfl⟩ ⟨payload', hp', hd', rfl⟩ h
    obtain ⟨rfl, -⟩ := recordBytes_append_inj hp hp' h
    rw [hd] at hd'
    cases hd'
    exact ⟨rfl, rfl⟩

/-- The scan throws at these bytes. -/
inductive Raises (E : Env) : Bytes → Prop
  | length {n : UInt64} (tail : Bytes) (h : maxSize < n.toNat ∨ E.allocBytes n.toNat = false) :
    Raises E ((RecordHeader.ofLength n).bytes ++ tail)
  | payload {payload : Bytes} (tail : Bytes) (hp : payload.length < 2 ^ 64)
    (h : ∀ block, decodePayload E.allocTransactions payload ≠ .ok block) :
    Raises E (recordBytes E.sha256 payload ++ tail)

-- ---------------------------------------------------------------------------
-- One turn
-- ---------------------------------------------------------------------------

theorem readBody_short (h : tail.length < zeros.length + 32) :
    readBody E zeros { rest := tail } = .ok none := by
  unfold readBody
  dsimp only
  split
  · rfl
  next hpayload =>
    have hlen := IFStream.length_rest_of_read (Bool.not_eq_true _ ▸ hpayload)
    have hfail : ((IFStream.read { rest := tail } zeros).2.read
        Hash256.zero.bytes).2.failed = true := by
      refine IFStream.failed_read_of_lt ?_
      rw [Hash256.zero.size_eq]
      dsimp only at hlen
      omega
    rw [if_pos hfail]

theorem readBody_whole {zeros payload check tail : Bytes} (hp : payload.length = zeros.length)
    (hc : check.length = 32) : readBody E zeros { rest := payload ++ (check ++ tail) } =
      if (E.sha256 payload).bytes ≠ check then .ok none
      else match decodePayload E.allocTransactions payload with
        | .error e => .error e
        | .ok block => .ok (some (block, { rest := tail })) := by
  unfold readBody
  rw [IFStream.read_append hp]
  dsimp only
  rw [IFStream.read_append (hc.trans Hash256.zero.size_eq.symm)]
  rfl

theorem resize_cases (E : Env) (n : Nat) :
    ((maxSize < n ∨ E.allocBytes n = false) ∧ ∃ e, resize E n = .error e) ∨
    (¬(maxSize < n ∨ E.allocBytes n = false) ∧ resize E n = .ok (List.replicate n 0)) := by
  unfold resize
  by_cases hmax : maxSize < n
  · exact .inl ⟨.inl hmax, _, if_pos hmax⟩
  · cases ha : E.allocBytes n with
    | false => exact .inl ⟨.inr rfl, .badAlloc, by simp [hmax]⟩
    | true => exact .inr ⟨by simpa using hmax, by simp [hmax]⟩

theorem not_raises_of_header {header : RecordHeader}
    (hroom : ∀ n, header = .ofLength n → ¬(maxSize < n.toNat ∨ E.allocBytes n.toNat = false))
    (hdecode : ∀ n payload rest, header = .ofLength n → payload.length = n.toNat →
      tail = payload ++ ((E.sha256 payload).bytes ++ rest) →
      ∃ block, decodePayload E.allocTransactions payload = .ok block) :
    ¬Raises E (header.bytes ++ tail) := by
  intro h
  generalize hs : header.bytes ++ tail = s at h
  cases h with
  | length tail' hbad => exact hroom _ (RecordHeader.bytes_append_inj hs).1 hbad
  | payload rest hp hbad =>
    obtain ⟨n, hheader, hlen, htail⟩ := header_eq_recordBytes hp hs
    obtain ⟨block, hblock⟩ := hdecode n _ rest hheader hlen htail
    exact hbad block hblock

theorem stuck_of_header {header : RecordHeader}
    (h : ∀ n payload rest, header = .ofLength n → payload.length = n.toNat →
      tail ≠ payload ++ ((sha256 payload).bytes ++ rest)) :
    Stuck (Record sha256) (header.bytes ++ tail) := by
  rintro s block rest ⟨payload, hp, -, rfl⟩ hs
  obtain ⟨n, hheader, hlen, htail⟩ := header_eq_recordBytes hp hs
  exact h n payload rest hheader hlen htail

theorem stuck_of_short (h : s.length < 22) : Stuck (Record sha256) s := by
  rintro r block rest ⟨payload, -, -, rfl⟩ rfl
  simp only [List.length_append, length_recordBytes] at h
  omega

theorem not_raises_of_short (h : s.length < 22) : ¬Raises E s := by
  intro hr
  cases hr with
  | length tail _ => simp at h
  | payload tail _ _ =>
    simp only [List.length_append, length_recordBytes] at h
    omega

/-- What one turn of the loop does: it takes a record, throws, or stops. -/
inductive Turn (E : Env) : Bytes → Except Exn (Option (Block × IFStream UInt8)) → Prop
  | record (hno : ¬Raises E (r ++ rest)) (hr : Record E.sha256 r block) :
    Turn E (r ++ rest) (.ok (some (block, { rest })))
  | throws (h : Raises E s) : Turn E s (.error e)
  | stops (hno : ¬Raises E s) (hs : Stuck (Record E.sha256) s) : Turn E s (.ok none)

theorem turn_short (h : s.length < 22) : Turn E s (.ok none) :=
  .stops (not_raises_of_short h) (stuck_of_short h)

theorem turn_bad_header {header : RecordHeader} (h : ∀ n, header ≠ .ofLength n) :
    Turn E (header.bytes ++ tail) (.ok none) := by
  refine .stops ?_ ?_
  · exact not_raises_of_header (fun n hn => (h n hn).elim) fun n _ _ hn => (h n hn).elim
  · exact stuck_of_header fun n _ _ hn => (h n hn).elim

theorem turn_bad_body {n : UInt64} (hroom : ¬(maxSize < n.toNat ∨ E.allocBytes n.toNat = false))
    (h : ∀ payload rest, payload.length = n.toNat →
      tail ≠ payload ++ ((E.sha256 payload).bytes ++ rest)) :
    Turn E ((RecordHeader.ofLength n).bytes ++ tail) (.ok none) := by
  refine .stops (not_raises_of_header ?_ ?_) (stuck_of_header ?_)
  · intro m hm
    exact RecordHeader.ofLength_inj hm ▸ hroom
  · intro m payload rest hm hp ht
    exact (h payload rest (RecordHeader.ofLength_inj hm ▸ hp) ht).elim
  · intro m payload rest hm hp
    exact h payload rest (RecordHeader.ofLength_inj hm ▸ hp)

/-- The bytes after a header split into payload, checksum and rest in one way
only. -/
theorem body_unique {sha256 : Bytes → Hash256} {payload payload' check rest rest' : Bytes}
    (hp : payload.length = payload'.length) (hc : check.length = 32)
    (h : payload ++ (check ++ rest) = payload' ++ ((sha256 payload').bytes ++ rest')) :
    payload' = payload ∧ check = (sha256 payload).bytes := by
  obtain ⟨rfl, h⟩ := List.append_inj h hp
  exact ⟨rfl, (List.append_inj h (hc.trans (sha256 payload).size_eq.symm)).1⟩

theorem turn_record {n : UInt64} (hroom : ¬(maxSize < n.toNat ∨ E.allocBytes n.toNat = false))
    (hp : payload.length = n.toNat) (hd : decodePayload E.allocTransactions payload = .ok block) :
    Turn E (recordBytes E.sha256 payload ++ rest) (.ok (some (block, { rest }))) := by
  refine .record ?_ ⟨payload, hp ▸ n.toNat_lt, (decodePayload_ok_iff.mp hd).1, rfl⟩
  rw [← recordBytes_of_length hp]
  refine not_raises_of_header (fun m hm => RecordHeader.ofLength_inj hm ▸ hroom) ?_
  intro m payload' rest' hm hp' ht
  have hlen : payload.length = payload'.length := by
    rw [hp, hp', RecordHeader.ofLength_inj hm]
  rw [(body_unique hlen (E.sha256 payload).size_eq ht).1]
  exact ⟨block, hd⟩

theorem readBody_turn {n : UInt64} (hroom : ¬(maxSize < n.toNat ∨ E.allocBytes n.toNat = false)) :
    Turn E ((RecordHeader.ofLength n).bytes ++ tail)
      (readBody E (List.replicate n.toNat 0) { rest := tail }) := by
  by_cases hshort : tail.length < n.toNat + 32
  · -- The payload or the checksum is cut off.
    rw [readBody_short (by simpa using hshort)]
    refine turn_bad_body hroom ?_
    rintro payload rest hp rfl
    simp only [List.length_append, hp, (E.sha256 payload).size_eq] at hshort
    omega
  obtain ⟨payload, check, rest, hp, hc, rfl⟩ : ∃ payload check rest,
      payload.length = n.toNat ∧ check.length = 32 ∧ tail = payload ++ (check ++ rest) := by
    refine ⟨tail.take n.toNat, (tail.drop n.toNat).take 32, (tail.drop n.toNat).drop 32, ?_, ?_,
      by simp⟩
    · simp only [List.length_take]
      omega
    · simp only [List.length_take, List.length_drop]
      omega
  rw [readBody_whole (by simpa using hp) hc]
  by_cases hcheck : (E.sha256 payload).bytes = check
  · subst hcheck
    rw [if_neg (by simp), recordBytes_of_length hp]
    cases hd : decodePayload E.allocTransactions payload with
    | error e => exact .throws (.payload rest (hp ▸ n.toNat_lt) (by simp [hd]))
    | ok block => exact turn_record hroom hp hd
  · rw [if_pos hcheck]
    refine turn_bad_body hroom ?_
    intro payload' rest' hp' ht
    exact hcheck (body_unique (hp.trans hp'.symm) hc ht).2.symm

theorem readRecord_turn (E : Env) (s : Bytes) : Turn E s (readRecord E { rest := s }) := by
  by_cases hshort : s.length < 22
  · rw [readRecord, readFields_short hshort]
    exact turn_short hshort
  obtain ⟨header, tail, rfl⟩ := RecordHeader.exists_bytes (Nat.le_of_not_lt hshort)
  simp only [readRecord, readFields_bytes]
  by_cases hheader : ∃ n, header = .ofLength n
  · rw [if_neg (RecordHeader.ofLength_iff.mp hheader)]
    obtain ⟨n, rfl⟩ := hheader
    have hn : (RecordHeader.ofLength n).length = n := rfl
    rw [hn]
    rcases resize_cases E n.toNat with ⟨hbad, e, hresize⟩ | ⟨hroom, hresize⟩
    · rw [hresize]
      exact .throws (.length tail hbad)
    · rw [hresize]
      exact readBody_turn hroom
  · rw [if_pos (Decidable.not_not.mp fun h => hheader (RecordHeader.ofLength_iff.mpr h))]
    exact turn_bad_header fun n hn => hheader ⟨n, hn⟩

/-- Three ways for a turn to go, with what the stream is left with. -/
theorem readRecord_cases (E : Env) (s : Bytes) :
    (¬Raises E s ∧ ∃ r block rest, Record E.sha256 r block ∧ s = r ++ rest ∧
      readRecord E { rest := s } = .ok (some (block, { rest }))) ∨
    (Raises E s ∧ ∃ e, readRecord E { rest := s } = .error e) ∨
    (¬Raises E s ∧ Stuck (Record E.sha256) s ∧ readRecord E { rest := s } = .ok none) := by
  have turn := readRecord_turn E s
  generalize readRecord E { rest := s } = result at turn ⊢
  cases turn with
  | record hno hr => exact .inl ⟨hno, _, _, _, hr, rfl, rfl⟩
  | throws h => exact .inr (.inl ⟨h, _, rfl⟩)
  | stops hno hs => exact .inr (.inr ⟨hno, hs, rfl⟩)

-- ---------------------------------------------------------------------------
-- The whole scan
-- ---------------------------------------------------------------------------

/-- Nothing that the scan meets on its way along the records raises. -/
def Readable (E : Env) (file : Bytes) : Prop :=
  ∀ log blocks rest, Frames (Record E.sha256) log blocks → file = log ++ rest → ¬Raises E rest

theorem Readable.head (h : Readable E file) : ¬Raises E file := h [] [] file .nil rfl

theorem readable_append (hr : Record E.sha256 r block) :
    Readable E (r ++ rest) ↔ ¬Raises E (r ++ rest) ∧ Readable E rest := by
  constructor
  · intro h
    refine ⟨h.head, ?_⟩
    rintro log blocks rest' hlog rfl
    exact h (r ++ log) (block :: blocks) rest' (.cons hr hlog) (by simp)
  · rintro ⟨hhead, h⟩ log blocks rest' hlog heq
    cases hlog with
    | nil =>
      rw [List.nil_append] at heq
      exact heq ▸ hhead
    | cons hr' hlog =>
      rw [List.append_assoc] at heq
      obtain ⟨rfl, -⟩ := (record_delimited E.sha256).unique _ _ _ _ _ _ hr hr' heq
      exact h _ _ rest' hlog (List.append_cancel_left heq)

theorem readable_of_stuck (hs : Stuck (Record E.sha256) file) :
    Readable E file ↔ ¬Raises E file := by
  constructor
  · exact Readable.head
  · rintro h log blocks rest hlog heq
    cases hlog with
    | nil =>
      rw [List.nil_append] at heq
      exact heq ▸ h
    | cons hr _ =>
      rw [List.append_assoc] at heq
      exact (hs _ _ _ hr heq).elim

theorem loadLoop_record (h : readRecord E { rest := s } = .ok (some (block, s'))) :
    loadLoop E { rest := s } out = loadLoop E s' (out ++ [block]) := by
  have hne : s ≠ [] := by
    rintro rfl
    simp [readRecord, readFields_short] at h
  rw [loadLoop, if_neg (by simpa [IFStream.peekEof] using hne)]
  split
  next he => simp [h] at he
  next he => simp [h] at he
  next he =>
    rw [h] at he
    cases he
    rfl

theorem loadLoop_stop (h : readRecord E { rest := s } = .ok none) :
    loadLoop E { rest := s } out = .ok out := by
  rw [loadLoop]
  split
  · rfl
  · split
    next he => simp [h] at he
    next => rfl
    next he => simp [h] at he

theorem loadLoop_throw (h : readRecord E { rest := s } = .error e) :
    loadLoop E { rest := s } out = .error e := by
  have hne : s ≠ [] := by
    rintro rfl
    simp [readRecord, readFields_short] at h
  rw [loadLoop, if_neg (by simpa [IFStream.peekEof] using hne)]
  split
  next he =>
    rw [h] at he
    cases he
    rfl
  next he => simp [h] at he
  next he => simp [h] at he

theorem loadLoop_ok {log rest : Bytes} (hlog : Frames (Record E.sha256) log blocks)
    (hs : Stuck (Record E.sha256) rest) (h : Readable E (log ++ rest)) :
    loadLoop E { rest := log ++ rest } out = .ok (out ++ blocks) := by
  induction hlog generalizing out with
  | nil =>
    rw [List.nil_append, List.append_nil] at *
    rcases readRecord_cases E rest with ⟨-, r, block, t, hr, rfl, -⟩ | ⟨hraises, -⟩ | ⟨-, -, hstop⟩
    · exact (hs _ _ _ hr rfl).elim
    · exact (h.head hraises).elim
    · exact loadLoop_stop hstop
  | @cons r block log blocks hr hlog ih =>
    rw [List.append_assoc] at h ⊢
    rcases readRecord_cases E (r ++ (log ++ rest)) with
      ⟨-, r', block', t, hr', heq, hread⟩ | ⟨hraises, -⟩ | ⟨-, hstuck, -⟩
    · obtain ⟨rfl, rfl⟩ := (record_delimited E.sha256).unique _ _ _ _ _ _ hr hr' heq
      have htail := List.append_cancel_left heq
      rw [loadLoop_record hread, ← htail, ih ((readable_append hr).mp h).2]
      simp
    · exact (h.head hraises).elim
    · exact (hstuck _ _ _ hr rfl).elim

theorem loadLoop_error {log rest : Bytes} (hlog : Frames (Record E.sha256) log blocks)
    (h : Raises E rest) :
    ∃ e, loadLoop E { rest := log ++ rest } out = .error e := by
  induction hlog generalizing out with
  | nil =>
    rcases readRecord_cases E rest with ⟨hno, -⟩ | ⟨-, e, he⟩ | ⟨hno, -⟩
    · exact (hno h).elim
    · exact ⟨e, loadLoop_throw he⟩
    · exact (hno h).elim
  | @cons r block log blocks hr hlog ih =>
    rw [List.append_assoc]
    rcases readRecord_cases E (r ++ (log ++ rest)) with
      ⟨-, r', block', t, hr', heq, hread⟩ | ⟨-, e, he⟩ | ⟨-, hstuck, -⟩
    · obtain ⟨rfl, rfl⟩ := (record_delimited E.sha256).unique _ _ _ _ _ _ hr hr' heq
      rw [loadLoop_record hread, ← List.append_cancel_left heq]
      exact ih
    · exact ⟨e, loadLoop_throw he⟩
    · exact (hstuck _ _ _ hr rfl).elim

/-- The longest prefix of records decides what is loaded, if anything is: on
a file that the scan can read to its end, `load_all_blocks` returns the blocks
of that prefix, and on any other it throws. -/
theorem loadAllBlocks_iff (E : Env) (file : Bytes) :
    ∃ log blocks, Longest (Record E.sha256) file log blocks ∧
      (∀ log' blocks', Longest (Record E.sha256) file log' blocks' →
        log' = log ∧ blocks' = blocks) ∧
      (loadAllBlocks E { log := some file } = .ok blocks ↔ Readable E file) := by
  have hd := record_delimited E.sha256
  obtain ⟨log, blocks, rest, hfile, hlog, hs⟩ := hd.exists_stuck file
  have hlongest : Longest (Record E.sha256) file log blocks :=
    (longest_iff hd).mpr ⟨rest, hfile, hlog, hs⟩
  refine ⟨log, blocks, hlongest, fun _ _ h => h.unique hd hlongest, ?_⟩
  have hload : loadAllBlocks E { log := some file } = loadLoop E { rest := file } [] := rfl
  rw [hload]
  constructor
  · rintro h log' blocks' rest' hlog' rfl hraises
    obtain ⟨e, he⟩ : ∃ e, loadLoop E { rest := log' ++ rest' } [] = .error e :=
      loadLoop_error hlog' hraises
    rw [he] at h
    cases h
  · intro h
    subst hfile
    exact loadLoop_ok hlog hs h

/-- Two files without a record at their front that make the scan throw: a
header with a length that no vector has, and a checksummed empty payload. -/
theorem loadAllBlocks_raises :
    let huge := (RecordHeader.ofLength 0xFFFFFFFFFFFFFFFF).bytes
    let empty := recordBytes sampleSha256 []
    (Longest (Record sampleSha256) huge [] [] ∧
      loadAllBlocks sampleEnv { log := some huge } = .error .lengthError) ∧
    (Longest (Record sampleSha256) empty [] [] ∧
      loadAllBlocks sampleEnv { log := some empty } = .error ByteReader.truncated) := by
  have hd := record_delimited sampleSha256
  refine ⟨⟨(longest_iff hd).mpr ⟨_, rfl, .nil, ?_⟩, by decide +kernel⟩,
    ⟨(longest_iff hd).mpr ⟨_, rfl, .nil, ?_⟩, by decide +kernel⟩⟩
  · rintro r block rest ⟨payload, -, -, rfl⟩ h
    have hlen := (RecordHeader.length_bytes _).symm.trans (congrArg List.length h)
    simp only [List.length_append, length_recordBytes] at hlen
    omega
  · rintro r block rest ⟨payload, hp, hdecode, rfl⟩ h
    obtain ⟨rfl, -⟩ := recordBytes_append_inj (by decide) hp ((List.append_nil _).trans h)
    have hempty : ∀ b, decodePayload (fun _ => true) [] ≠ .ok b := by
      have herror : decodePayload (fun _ => true) [] = .error ByteReader.truncated := by
        decide +kernel
      simp [herror]
    exact hempty block hdecode

end BlockStore

end Astro
