import Astro.Storage.Scan

/-!
# What an append leaves in the log

`append_block` leaves the old log and a prefix of the record of its block.
Whether it returns (`Reports`) and whether the prefix is the whole record
(`Completes`) depend on what the system did to the stream. A log of records
whose last one is torn loads as the records before it.
-/

namespace Astro

open FileStream
open FramedLog
open BlockStore (Record recordBytes Raises Readable)

-- ---------------------------------------------------------------------------
-- The stream
-- ---------------------------------------------------------------------------

namespace AppendTransfers

/-- One of the writes before the checksum fails. -/
def EarlyFailure (io : AppendTransfers) : Prop :=
  ∃ t ∈ [io.magic, io.version, io.kind, io.length, io.payload], t.Fails

instance (io : AppendTransfers) : Decidable io.EarlyFailure :=
  inferInstanceAs
    (Decidable (∃ t ∈ [io.magic, io.version, io.kind, io.length, io.payload], t.Fails))

/-- No write fails, so that `append_block` returns. -/
def Reports (io : AppendTransfers) : Prop := ¬io.EarlyFailure ∧ ¬io.check.Fails

/-- Everything is written and, by the last write, the flush or the close,
moved to the file. -/
def Completes (io : AppendTransfers) : Prop :=
  ¬io.EarlyFailure ∧ (io.check = .keeps 0 ∨ (¬io.check.Fails ∧ io.flush = none) ∨ io.close = none)

structure Clean (io : AppendTransfers) : Prop where
  early : ¬io.EarlyFailure
  check : ¬io.check.Fails
  flush : io.flush = none
  close : io.close = none

instance (io : AppendTransfers) : Decidable io.Clean :=
  decidable_of_iff (¬io.EarlyFailure ∧ ¬io.check.Fails ∧ io.flush = none ∧ io.close = none)
    ⟨fun ⟨h1, h2, h3, h4⟩ => ⟨h1, h2, h3, h4⟩, fun ⟨h1, h2, h3, h4⟩ => ⟨h1, h2, h3, h4⟩⟩

/-- Everything stays in the buffer until the flush, or until the close. -/
def buffered (flush close : Option Nat) : AppendTransfers where
  magic := .keeps 4
  version := .keeps 12
  kind := .keeps 14
  length := .keeps 22
  payload := .keeps (2 ^ 63)
  check := .keeps (2 ^ 63)
  flush := flush
  close := close

theorem Clean.reports {io : AppendTransfers} (h : io.Clean) : io.Reports := ⟨h.early, h.check⟩

theorem Clean.completes {io : AppendTransfers} (h : io.Clean) : io.Completes :=
  ⟨h.early, .inr (.inr h.close)⟩

end AppendTransfers

namespace BlockStore

def earlyWrites (io : AppendTransfers) (payload : Bytes) : List (Bytes × Transfer) :=
  [(LittleEndian.toLE 4 MAGIC.toNat, io.magic), (LittleEndian.toLE 8 VER.toNat, io.version),
    (LittleEndian.toLE 2 KIND_BLOCK.toNat, io.kind),
    (LittleEndian.toLE 8 (UInt64.ofNat payload.length).toNat, io.length), (payload, io.payload)]

theorem earlyWrites_bytes (sha256 : Bytes → Hash256) (io : AppendTransfers) (payload : Bytes) :
    (earlyWrites io payload).flatMap Prod.fst ++ (sha256 payload).bytes =
      recordBytes sha256 payload := by
  simp [earlyWrites, recordBytes, RecordHeader.bytes, RecordHeader.ofLength]

theorem earlyWrites_ne_nil (io : AppendTransfers) (hp : payload ≠ []) :
    ∀ w ∈ earlyWrites io payload, w.1 ≠ [] := by
  have hne (n v : Nat) (hn : 0 < n) : LittleEndian.toLE n v ≠ [] := by
    refine List.length_pos_iff.mp ?_
    rwa [LittleEndian.length_toLE]
  simp [earlyWrites, hne, hp]

theorem earlyWrites_fails :
    (∃ w ∈ earlyWrites io payload, w.2.Fails) ↔ io.EarlyFailure := by
  simp [earlyWrites, AppendTransfers.EarlyFailure]

def written (E : Env) (io : AppendTransfers) (payload log : Bytes) : OFStream UInt8 :=
  (({ file := log } : OFStream UInt8).writeAll (earlyWrites io payload)).write
    (E.sha256 payload).bytes io.check

theorem appendBlock_eq (hw : store.canWrite = true) : appendBlock E io block store =
    let out := written E io block.serialize (store.log.getD [])
    if out.bad then
      (.error (.runtimeError "BlockStore: write failed"),
        { store with log := some (out.close io.close).file })
    else (.ok (), { store with log := some ((out.flush io.flush).close io.close).file }) := by
  simp only [appendBlock, hw, Bool.not_true, Bool.false_eq_true, if_false]
  rfl

theorem check_ne_nil {sha256 : Bytes → Hash256} : (sha256 payload).bytes ≠ [] := by
  refine List.length_pos_iff.mp ?_
  rw [(sha256 payload).size_eq]
  decide

/-- After a failure before the checksum a proper part of the record is
accepted, and some of it is pending. -/
theorem written_early (E : Env) {payload : Bytes} (log : Bytes) (hp : payload ≠ [])
    (h : io.EarlyFailure) :
    (written E io payload log).bad = true ∧ ∃ accepted missing, missing ≠ [] ∧
      accepted ++ missing = recordBytes E.sha256 payload ∧
      (written E io payload log).content = log ++ accepted := by
  obtain ⟨ws₁, w, ws₂, hws, hok, hf⟩ := OFStream.exists_first_failure (earlyWrites_fails.mpr h)
  have hne := earlyWrites_ne_nil io hp
  rw [hws] at hne
  simp only [List.forall_mem_append, List.forall_mem_cons] at hne
  obtain ⟨hbad, -, hcontent⟩ := OFStream.writeAll_fails (s := { file := log }) ws₂ rfl
    (fun w hw => ⟨hne.1 w hw, hok w hw⟩) hne.2.1 hf
  rw [← hws] at hbad hcontent
  have hstop : written E io payload log = ({ file := log } : OFStream UInt8).writeAll _ :=
    OFStream.write_of_bad hbad
  rw [hstop]
  refine ⟨hbad, ws₁.flatMap Prod.fst ++ w.1,
    ws₂.flatMap Prod.fst ++ (E.sha256 payload).bytes, by simp [check_ne_nil], ?_, ?_⟩
  · rw [← earlyWrites_bytes E.sha256 io payload, hws]
    simp
  · simpa [OFStream.content] using hcontent

/-- Without one the whole record is accepted, and it is bad, or pending, by
the last write alone. -/
theorem written_late (E : Env) {payload : Bytes} (log : Bytes) (hp : payload ≠ [])
    (h : ¬io.EarlyFailure) :
    ((written E io payload log).bad = true ↔ io.check.Fails) ∧
      ((written E io payload log).pending = [] ↔ io.check = .keeps 0) ∧
      (written E io payload log).content = log ++ recordBytes E.sha256 payload := by
  have hws : ∀ w ∈ earlyWrites io payload, w.1 ≠ [] ∧ ¬w.2.Fails := fun w hw =>
    ⟨earlyWrites_ne_nil io hp w hw, fun hf => h (earlyWrites_fails.mp ⟨w, hw, hf⟩)⟩
  obtain ⟨hok, hcontent⟩ := OFStream.writeAll_ok (s := { file := log }) rfl hws
  refine ⟨OFStream.bad_write hok check_ne_nil, OFStream.pending_write hok check_ne_nil, ?_⟩
  rw [written, OFStream.content_write hok, hcontent, List.append_assoc, earlyWrites_bytes]
  simp [OFStream.content]

theorem file_written (E : Env) (io : AppendTransfers) (payload log : Bytes) :
    log <+: (written E io payload log).file :=
  (OFStream.file_writeAll { file := log }).trans (OFStream.file_write _)

/-- What `append_block` leaves in a log that it can open, and what it says. -/
theorem appendBlock_spec (E : Env) (io : AppendTransfers) (block : Block) {store : BlockStore}
    (hw : store.canWrite = true) : ∃ p, p <+: recordBytes E.sha256 block.serialize ∧
      (appendBlock E io block store).2 = { store with log := some (store.log.getD [] ++ p) } ∧
      ((appendBlock E io block store).1 = .ok () ↔ io.Reports) ∧
      (p = recordBytes E.sha256 block.serialize ↔ io.Completes) := by
  have hne := block.serialize_ne_nil
  have hfile := file_written E io block.serialize (store.log.getD [])
  rw [appendBlock_eq hw]
  dsimp only
  by_cases hearly : io.EarlyFailure
  · obtain ⟨hbad, accepted, missing, hmissing, hrecord, hcontent⟩ :=
      written_early E (store.log.getD []) hne hearly
    obtain ⟨p, hp, hprefix, -⟩ := OFStream.exists_file_close io.close hfile hcontent
    rw [if_pos hbad]
    refine ⟨p, hprefix.trans ⟨missing, hrecord⟩, by simp [hp], ?_, ?_⟩
    · simp [AppendTransfers.Reports, hearly]
    · have hlt : p ≠ recordBytes E.sha256 block.serialize := by
        rintro rfl
        have hle := hprefix.length_le
        have hpos := List.length_pos_iff.mpr hmissing
        rw [← hrecord, List.length_append] at hle
        omega
      simp [AppendTransfers.Completes, hearly, hlt]
  · obtain ⟨hbad, hpending, hcontent⟩ := written_late E (store.log.getD []) hne hearly
    by_cases hcheck : io.check.Fails
    · obtain ⟨p, hp, hprefix, hwhole⟩ := OFStream.exists_file_close io.close hfile hcontent
      have hkeeps : io.check ≠ .keeps 0 := by
        intro h
        rw [h] at hcheck
        exact hcheck
      rw [if_pos (hbad.mpr hcheck)]
      refine ⟨p, hprefix, by simp [hp], by simp [AppendTransfers.Reports, hcheck], ?_⟩
      rw [hwhole, hpending]
      simp [AppendTransfers.Completes, hearly, hcheck, hkeeps]
    · have hgood : (written E io block.serialize (store.log.getD [])).bad = false := by
        simpa using mt hbad.mp hcheck
      obtain ⟨p, hp, hprefix, hwhole⟩ := OFStream.exists_file_close io.close
        (hfile.trans (OFStream.file_flush (t := io.flush) _))
        ((OFStream.content_flush _).trans hcontent)
      rw [if_neg (by simp [hgood])]
      refine ⟨p, hprefix, by simp [hp], by simp [AppendTransfers.Reports, hearly, hcheck], ?_⟩
      rw [hwhole, OFStream.pending_flush hgood, hpending]
      simp only [AppendTransfers.Completes, hearly, hcheck, not_false_eq_true, true_and]
      rw [or_rotate, or_left_comm]

end BlockStore

end Astro
