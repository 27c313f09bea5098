import SslAutoref.Model.Logger

/-!
# The bytes of the log

What the logger writes and `ReadUDPMessageWrapper` reads are frames of the same
kind: the records come back as they were written, also from a log that is cut off
(`log_framing`). Neither of the two `fwrite` calls of a record is checked, so a
record can be written in part. The records in front of it come back, and then the
reader takes the bytes of later records for the rest of it (`torn_record`).
-/

namespace SslAutoref.Theorems

open Framing

/-- Buffers that fit the size are logged as their frames. -/
theorem loggedBytes_of_lt {payloads : List (List UInt8)}
    (h : ∀ p ∈ payloads, p.length < 2 ^ 32) :
    loggedBytes payloads = encodeFrames kSizeWidth payloads := by
  have hblocks : payloads.map payloadBlock = payloads.map id :=
    List.map_congr_left fun p hp => payloadBlock_of_lt (h p hp)
  rw [loggedBytes_eq, hblocks, List.map_id]

/-- **The framing of the log.** Payloads that fit the size are read back as they were
written; of a log that is cut off after `n` bytes exactly those that end before the
cut; and whatever is read from any bytes, logging it gives what they begin with. -/
theorem log_framing {payloads : List (List UInt8)} (h : ∀ p ∈ payloads, p.length < 2 ^ 32)
    (n : Nat) (bytes : List UInt8) :
    readFrames kSizeWidth (loggedBytes payloads) = payloads ∧
      (∃ m ≤ payloads.length,
        readFrames kSizeWidth ((loggedBytes payloads).take n) = payloads.take m ∧
        ∀ j < payloads.length,
          (j < m ↔ (loggedBytes (payloads.take (j + 1))).length ≤ n)) ∧
      loggedBytes (readFrames kSizeWidth bytes) <+: bytes := by
  refine ⟨?_, ?_, ?_⟩
  · rw [loggedBytes_of_lt h]
    exact readFrames_encodeFrames_self kSizeWidth_pos h
  · obtain ⟨m, hm, hread, hends⟩ := readFrames_take kSizeWidth_pos h n
    refine ⟨m, hm, ?_, ?_⟩
    · rw [loggedBytes_of_lt h, hread]
    · intro j hj
      rw [loggedBytes_of_lt fun p hp => h p (List.mem_of_mem_take hp)]
      exact hends j hj
  · have hfit : ∀ p ∈ readFrames kSizeWidth bytes, p.length < 2 ^ 32 :=
      length_of_mem_readFrames kSizeWidth_pos
    rw [loggedBytes_of_lt hfit]
    exact encodeFrames_readFrames_prefix kSizeWidth_pos bytes

/-- An empty record and one that is cut off after its size. -/
theorem log_framing_cut :
    readFrames kSizeWidth (loggedBytes [[], [7, 8]]) = [[], [7, 8]] ∧
      (∃ m ≤ 2,
        readFrames kSizeWidth ((loggedBytes [[], [7, 8]]).take 8) = [[], [7, 8]].take m ∧
        ∀ j < 2, (j < m ↔ (loggedBytes ([[], [7, 8]].take (j + 1))).length ≤ 8)) ∧
      loggedBytes (readFrames kSizeWidth [1, 0, 0, 0, 9, 9]) <+: [1, 0, 0, 0, 9, 9] :=
  log_framing (by decide) 8 [1, 0, 0, 0, 9, 9]

/-! ## Short writes -/

/-- A record, and how many bytes each of its two writes took. -/
structure WrittenRecord where
  payload : List UInt8
  sizeWritten : Nat
  payloadWritten : Nat
  payload_lt : payload.length < 2 ^ 32
  sizeWritten_le : sizeWritten ≤ kSizeWidth
  payloadWritten_le : payloadWritten ≤ payload.length

/-- Both writes took all. -/
def WrittenRecord.Whole (r : WrittenRecord) : Prop :=
  r.sizeWritten = kSizeWidth ∧ r.payloadWritten = r.payload.length

/-- Both writes took nothing. -/
def WrittenRecord.Missing (r : WrittenRecord) : Prop :=
  r.sizeWritten = 0 ∧ r.payloadWritten = 0

instance (r : WrittenRecord) : Decidable r.Whole :=
  inferInstanceAs (Decidable (_ ∧ _))

/-- What a record leaves in the file. -/
def WrittenRecord.bytes (r : WrittenRecord) : List UInt8 :=
  (sizeBlock r.payload).take r.sizeWritten ++ (payloadBlock r.payload).take r.payloadWritten

/-- The bytes of the file. -/
def writtenBytes (records : List WrittenRecord) : List UInt8 := records.flatMap (·.bytes)

/-- The payloads of the records that are wholly written. -/
def wholePayloads (records : List WrittenRecord) : List (List UInt8) :=
  (records.filter (·.Whole)).map (·.payload)

theorem WrittenRecord.Whole.bytes_eq {r : WrittenRecord} (h : r.Whole) :
    r.bytes = encodeFrame kSizeWidth r.payload := by
  have hsize : (sizeBlock r.payload).length = kSizeWidth := length_sizeBytes _ _
  rw [WrittenRecord.bytes, h.1, h.2, payloadBlock_of_lt r.payload_lt, List.take_length,
    List.take_of_length_le (Nat.le_of_eq hsize)]
  have hframe := sizeBlock_append_payloadBlock r.payload
  rwa [payloadBlock_of_lt r.payload_lt] at hframe

theorem WrittenRecord.Missing.bytes_eq {r : WrittenRecord} (h : r.Missing) : r.bytes = [] := by
  rw [WrittenRecord.bytes, h.1, h.2]
  rfl

theorem WrittenRecord.Missing.not_whole {r : WrittenRecord} (h : r.Missing) : ¬ r.Whole := by
  intro hwhole
  have hsize : kSizeWidth = 0 := hwhole.1.symm.trans h.1
  cases hsize

/-- Records that are whole or missing leave the frames of the whole ones. -/
theorem writtenBytes_eq {records : List WrittenRecord}
    (h : ∀ r ∈ records, r.Whole ∨ r.Missing) :
    writtenBytes records = encodeFrames kSizeWidth (wholePayloads records) := by
  induction records with
  | nil => rfl
  | cons r rs ih =>
    have hrest := ih fun r' hr' => h r' (List.mem_cons_of_mem _ hr')
    have hcons : writtenBytes (r :: rs) = r.bytes ++ writtenBytes rs := rfl
    rw [hcons, hrest]
    rcases h r List.mem_cons_self with hwhole | hmissing
    · have hpayloads : wholePayloads (r :: rs) = r.payload :: wholePayloads rs := by
        rw [wholePayloads, List.filter_cons_of_pos (by simpa using hwhole), List.map_cons]
        rfl
      rw [hpayloads, encodeFrames_cons, hwhole.bytes_eq]
    · have hpayloads : wholePayloads (r :: rs) = wholePayloads rs := by
        rw [wholePayloads, List.filter_cons_of_neg (by simpa using hmissing.not_whole)]
        rfl
      rw [hpayloads, hmissing.bytes_eq]
      rfl

theorem wholePayloads_append (rs rs' : List WrittenRecord) :
    wholePayloads (rs ++ rs') = wholePayloads rs ++ wholePayloads rs' := by
  rw [wholePayloads, List.filter_append, List.map_append]
  rfl

theorem length_of_mem_wholePayloads {records : List WrittenRecord} :
    ∀ p ∈ wholePayloads records, p.length < 256 ^ kSizeWidth := by
  intro p hp
  obtain ⟨r, -, rfl⟩ := List.mem_map.mp hp
  exact r.payload_lt

/-- A record whose writes stop at one place leaves a part of its frame, and is not
read. -/
theorem readFrame_bytes_of_cut {r : WrittenRecord} (h : ¬ r.Whole)
    (hcut : r.sizeWritten = kSizeWidth ∨ r.payloadWritten = 0) :
    readFrame kSizeWidth r.bytes = none := by
  have hsize : (sizeBlock r.payload).length = kSizeWidth := length_sizeBytes _ _
  have hframe := sizeBlock_append_payloadBlock r.payload
  rw [payloadBlock_of_lt r.payload_lt] at hframe
  have hsizeWritten := r.sizeWritten_le
  have hpayloadWritten := r.payloadWritten_le
  have hbytes : r.bytes =
      (encodeFrame kSizeWidth r.payload).take (r.sizeWritten + r.payloadWritten) := by
    rw [← hframe, List.take_append, hsize, WrittenRecord.bytes,
      payloadBlock_of_lt r.payload_lt]
    -- what is written of the size and of the payload is one piece
    rcases hcut with hall | hnone
    · have hlong : (sizeBlock r.payload).length ≤ kSizeWidth + r.payloadWritten := by omega
      rw [hall, Nat.add_sub_cancel_left, List.take_of_length_le (Nat.le_of_eq hsize),
        List.take_of_length_le hlong]
    · rw [hnone, Nat.add_zero, Nat.sub_eq_zero_of_le hsizeWritten]
  rw [hbytes]
  refine readFrame_take_encodeFrame r.payload_lt ?_
  by_cases hall : r.sizeWritten = kSizeWidth
  · have hne : r.payloadWritten ≠ r.payload.length := fun heq => h ⟨hall, heq⟩
    omega
  · omega

/-- **A record that is written in part.** The wholly written records in front of it come
back first, in order; what comes after them is read from its bytes on. When its writes
stop at one place and no later record leaves any bytes, exactly the wholly written
records come back. -/
theorem torn_record {before : List WrittenRecord} {torn : WrittenRecord}
    {after : List WrittenRecord} (hbefore : ∀ r ∈ before, r.Whole ∨ r.Missing)
    (htorn : ¬ torn.Whole) :
    readFrames kSizeWidth (writtenBytes (before ++ torn :: after)) =
        wholePayloads before ++ readFrames kSizeWidth (torn.bytes ++ writtenBytes after) ∧
      (torn.sizeWritten = kSizeWidth ∨ torn.payloadWritten = 0 → (∀ r ∈ after, r.Missing) →
        readFrames kSizeWidth (writtenBytes (before ++ torn :: after)) =
          wholePayloads (before ++ torn :: after)) := by
  have hfirst : readFrames kSizeWidth (writtenBytes (before ++ torn :: after)) =
      wholePayloads before ++ readFrames kSizeWidth (torn.bytes ++ writtenBytes after) := by
    have hsplit : writtenBytes (before ++ torn :: after) =
        writtenBytes before ++ (torn.bytes ++ writtenBytes after) := List.flatMap_append
    rw [hsplit, writtenBytes_eq hbefore,
      readFrames_encodeFrames kSizeWidth_pos length_of_mem_wholePayloads]
  refine ⟨hfirst, ?_⟩
  -- the cut record is the end of the file, and no frame
  intro hcut hafter
  have hnoBytes : writtenBytes after = [] :=
    List.flatMap_eq_nil_iff.mpr fun r hr => (hafter r hr).bytes_eq
  have hnoneWhole : wholePayloads (torn :: after) = [] := by
    refine List.map_eq_nil_iff.mpr (List.filter_eq_nil_iff.mpr ?_)
    intro r hr
    rw [decide_eq_true_eq]
    rcases List.mem_cons.mp hr with rfl | hr
    · exact htorn
    · exact (hafter r hr).not_whole
  rw [hfirst, wholePayloads_append, hnoneWhole, hnoBytes, List.append_nil,
    readFrames_eq kSizeWidth_pos, readFrame_bytes_of_cut htorn hcut]

/-- A record that is wholly written. -/
def wholeRecord : WrittenRecord := ⟨[7], 4, 1, by decide, by decide, by decide⟩

/-- A record of four bytes, of which the first `n` are written. -/
def cutRecord (n : Nat) (h : n ≤ 4) : WrittenRecord :=
  ⟨[1, 2, 3, 4], 4, n, by decide, Nat.le_refl 4, h⟩

/-- When no payload is written, the size of the next record is read for it. -/
theorem torn_record_shifts :
    ¬ ∀ records : List WrittenRecord,
      readFrames kSizeWidth (writtenBytes records) = wholePayloads records := by
  intro h
  have hread : readFrames kSizeWidth
      (writtenBytes [cutRecord 0 (Nat.zero_le 4), wholeRecord]) = [[1, 0, 0, 0]] := rfl
  rw [h] at hread
  exact absurd hread (by decide)

/-- A whole record comes back before the one whose payload stops short. -/
theorem torn_record_last :
    readFrames kSizeWidth (writtenBytes ([wholeRecord] ++ [cutRecord 3 (Nat.le_succ 3)])) =
        wholePayloads [wholeRecord] ++
          readFrames kSizeWidth ((cutRecord 3 (Nat.le_succ 3)).bytes ++ writtenBytes []) ∧
      (4 = kSizeWidth ∨ 3 = 0 → (∀ r ∈ ([] : List WrittenRecord), r.Missing) →
        readFrames kSizeWidth
            (writtenBytes ([wholeRecord] ++ [cutRecord 3 (Nat.le_succ 3)])) =
          wholePayloads ([wholeRecord] ++ [cutRecord 3 (Nat.le_succ 3)])) :=
  torn_record (by simpa using .inl ⟨rfl, rfl⟩) (by decide)

end SslAutoref.Theorems
