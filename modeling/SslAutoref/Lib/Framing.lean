import Mathlib.Data.List.Basic
import Mathlib.Tactic.Ring
import SslAutoref.Lib.Repeat

/-!
# Length-prefixed frames

A frame is a payload behind its own length, the length written as `width`
bytes, least significant first. A reader takes the frames off a byte stream
one after the other and stops at the first one that is not completely there.
-/

namespace Framing

/-- `width` bytes of a number, least significant first. -/
def sizeBytes : Nat → Nat → List UInt8
  | 0, _ => []
  | width + 1, n => UInt8.ofNat n :: sizeBytes width (n / 256)

/-- The number a list of bytes spells, least significant first. -/
def sizeOfBytes : List UInt8 → Nat
  | [] => 0
  | b :: bs => b.toNat + 256 * sizeOfBytes bs

/-- One frame: the length, then the payload. -/
def encodeFrame (width : Nat) (payload : List UInt8) : List UInt8 :=
  sizeBytes width payload.length ++ payload

/-- A sequence of frames. -/
def encodeFrames (width : Nat) (payloads : List (List UInt8)) : List UInt8 :=
  (payloads.map (encodeFrame width)).flatten

/-- Take one frame off a stream: the payload and what follows it, or nothing
when the length or the payload is cut short. -/
def readFrame (width : Nat) (stream : List UInt8) :
    Option (List UInt8 × List UInt8) :=
  if stream.length < width then none
  else
    let size := sizeOfBytes (stream.take width)
    let body := stream.drop width
    if body.length < size then none
    else some (body.take size, body.drop size)

/-- Read at most `fuel` frames. -/
def readFramesUpTo (width : Nat) : Nat → List UInt8 → List (List UInt8)
  | 0, _ => []
  | fuel + 1, stream =>
    match readFrame width stream with
    | none => []
    | some (payload, rest) => payload :: readFramesUpTo width fuel rest

/-- Read frames until one is not completely there. With a positive `width`
every frame takes at least one byte, so the stream's length is fuel enough
(`readFrames_eq`). -/
def readFrames (width : Nat) (stream : List UInt8) : List (List UInt8) :=
  readFramesUpTo width stream.length stream

@[simp] theorem encodeFrames_nil (width : Nat) : encodeFrames width [] = [] := rfl

theorem encodeFrames_cons (width : Nat) (p : List UInt8) (ps : List (List UInt8)) :
    encodeFrames width (p :: ps) = encodeFrame width p ++ encodeFrames width ps := rfl

/-! ## Sizes -/

@[simp] theorem length_sizeBytes (width n : Nat) :
    (sizeBytes width n).length = width := by
  induction width generalizing n with
  | zero => rfl
  | succ width ih => simp [sizeBytes, ih]

theorem sizeOfBytes_sizeBytes {width n : Nat} (h : n < 256 ^ width) :
    sizeOfBytes (sizeBytes width n) = n := by
  induction width generalizing n with
  | zero => simp only [Nat.pow_zero] at h; simp [sizeBytes, sizeOfBytes]; omega
  | succ width ih =>
    have hdiv : n / 256 < 256 ^ width := by
      rw [Nat.pow_succ] at h
      omega
    rw [sizeBytes, sizeOfBytes, ih hdiv, UInt8.toNat_ofNat']
    omega

/-! ## Reading -/

theorem length_of_readFrame {width : Nat} {stream payload rest : List UInt8}
    (h : readFrame width stream = some (payload, rest)) :
    rest.length + width ≤ stream.length := by
  unfold readFrame at h
  split at h
  · cases h
  · dsimp only at h
    split at h
    · cases h
    · obtain ⟨rfl, rfl⟩ := Prod.mk.inj (Option.some.inj h)
      simp only [List.length_drop]
      omega

theorem shrinks_readFrame {width : Nat} (hw : 0 < width) :
    Repeat.Shrinks List.length (readFrame width) := by
  intro stream payload rest hread
  have hlen := length_of_readFrame hread
  omega

/-- A frame that is completely there is read whatever follows it. -/
theorem extends_readFrame (width : Nat) : Repeat.Extends (readFrame width) := by
  intro stream payload rest hread more
  unfold readFrame at hread ⊢
  split at hread
  · cases hread
  · rename_i hwidth
    dsimp only at hread
    split at hread
    · cases hread
    · rename_i hsize
      obtain ⟨rfl, rfl⟩ := Prod.mk.inj (Option.some.inj hread)
      have hle : width ≤ stream.length := Nat.le_of_not_lt hwidth
      have hbody := Nat.le_of_not_lt hsize
      rw [List.length_append, if_neg (by omega), List.take_append_of_le_length hle,
        List.drop_append_of_le_length hle]
      dsimp only
      rw [List.length_append, if_neg (by omega), List.take_append_of_le_length hbody,
        List.drop_append_of_le_length hbody]

theorem readFramesUpTo_eq (width fuel : Nat) (stream : List UInt8) :
    readFramesUpTo width fuel stream = Repeat.upTo (readFrame width) fuel stream := by
  induction fuel generalizing stream with
  | zero => rfl
  | succ fuel ih =>
    rw [readFramesUpTo, Repeat.upTo]
    cases readFrame width stream with
    | none => rfl
    | some frame =>
      dsimp only
      rw [ih]

theorem readFrames_eq_all (width : Nat) (stream : List UInt8) :
    readFrames width stream = Repeat.all List.length (readFrame width) stream :=
  readFramesUpTo_eq width stream.length stream

/-- **A stream that goes on** has the frames of its start, and then others. -/
theorem readFrames_prefix_append {width : Nat} (hw : 0 < width) (stream more : List UInt8) :
    readFrames width stream <+: readFrames width (stream ++ more) := by
  rw [readFrames_eq_all, readFrames_eq_all]
  exact Repeat.all_prefix_append (shrinks_readFrame hw) (extends_readFrame width) stream more

/-- Reading on: the loop of a reader, one frame at a time. -/
theorem readFrames_eq {width : Nat} (hw : 0 < width) (stream : List UInt8) :
    readFrames width stream =
      match readFrame width stream with
      | none => []
      | some (payload, rest) => payload :: readFrames width rest := by
  rw [readFrames_eq_all, Repeat.all_eq (shrinks_readFrame hw)]
  cases readFrame width stream with
  | none => rfl
  | some frame =>
    dsimp only
    rw [readFrames_eq_all]

/-- A complete frame is read back, whatever follows it. -/
theorem readFrame_encodeFrame {width : Nat} {payload : List UInt8}
    (h : payload.length < 256 ^ width) (rest : List UInt8) :
    readFrame width (encodeFrame width payload ++ rest) = some (payload, rest) := by
  have hlen : ¬ (encodeFrame width payload ++ rest).length < width := by
    simp [encodeFrame]
  have htake : (encodeFrame width payload ++ rest).take width =
      sizeBytes width payload.length := by
    rw [encodeFrame, List.append_assoc, List.take_left' (length_sizeBytes _ _)]
  have hdrop : (encodeFrame width payload ++ rest).drop width = payload ++ rest := by
    rw [encodeFrame, List.append_assoc, List.drop_left' (length_sizeBytes _ _)]
  simp only [readFrame, if_neg hlen, htake, hdrop, sizeOfBytes_sizeBytes h]
  simp

/-- Reading what was written in front of a stream. -/
theorem readFrames_encodeFrames {width : Nat} (hw : 0 < width)
    {payloads : List (List UInt8)} (h : ∀ p ∈ payloads, p.length < 256 ^ width)
    (rest : List UInt8) :
    readFrames width (encodeFrames width payloads ++ rest) =
      payloads ++ readFrames width rest := by
  induction payloads with
  | nil => rfl
  | cons p ps ih =>
    rw [encodeFrames_cons, List.append_assoc, readFrames_eq hw,
      readFrame_encodeFrame (h p List.mem_cons_self), List.cons_append,
      ← ih fun q hq => h q (List.mem_cons_of_mem _ hq)]

/-- What was written comes back. -/
theorem readFrames_encodeFrames_self {width : Nat} (hw : 0 < width)
    {payloads : List (List UInt8)} (h : ∀ p ∈ payloads, p.length < 256 ^ width) :
    readFrames width (encodeFrames width payloads) = payloads := by
  have hread := readFrames_encodeFrames hw h []
  rw [List.append_nil] at hread
  rw [hread]
  exact List.append_nil payloads

/-! ## Any stream -/

theorem sizeOfBytes_lt (bytes : List UInt8) : sizeOfBytes bytes < 256 ^ bytes.length := by
  induction bytes with
  | nil => exact Nat.one_pos
  | cons b bytes ih =>
    have hb := b.toNat_lt
    rw [sizeOfBytes, List.length_cons, Nat.pow_succ]
    omega

theorem sizeBytes_sizeOfBytes (bytes : List UInt8) :
    sizeBytes bytes.length (sizeOfBytes bytes) = bytes := by
  induction bytes with
  | nil => rfl
  | cons b bytes ih =>
    have hb := b.toNat_lt
    have hhead : UInt8.ofNat (b.toNat + 256 * sizeOfBytes bytes) = b := by
      apply UInt8.toNat_inj.mp
      rw [UInt8.toNat_ofNat']
      omega
    have htail : (b.toNat + 256 * sizeOfBytes bytes) / 256 = sizeOfBytes bytes := by omega
    rw [List.length_cons, sizeOfBytes, sizeBytes, hhead, htail, ih]

/-- A frame that was read is what the stream begins with. -/
theorem encodeFrame_of_readFrame {width : Nat} {stream payload rest : List UInt8}
    (h : readFrame width stream = some (payload, rest)) :
    stream = encodeFrame width payload ++ rest := by
  unfold readFrame at h
  split at h
  · cases h
  · rename_i hwidth
    dsimp only at h
    split at h
    · cases h
    · rename_i hsize
      obtain ⟨rfl, rfl⟩ := Prod.mk.inj (Option.some.inj h)
      have htaken : (stream.take width).length = width := by
        rw [List.length_take]
        omega
      have hlen : ((stream.drop width).take (sizeOfBytes (stream.take width))).length =
          sizeOfBytes (stream.take width) := by
        rw [List.length_take]
        omega
      have hbytes : sizeBytes width (sizeOfBytes (stream.take width)) =
          stream.take width := by
        have hround := sizeBytes_sizeOfBytes (stream.take width)
        rwa [htaken] at hround
      rw [encodeFrame, hlen, hbytes, List.append_assoc, List.take_append_drop,
        List.take_append_drop]

theorem length_payload_of_readFrame {width : Nat} {stream payload rest : List UInt8}
    (h : readFrame width stream = some (payload, rest)) : payload.length < 256 ^ width := by
  unfold readFrame at h
  split at h
  · cases h
  · dsimp only at h
    split at h
    · cases h
    · obtain ⟨rfl, -⟩ := Prod.mk.inj (Option.some.inj h)
      have hlt := sizeOfBytes_lt (stream.take width)
      have hlen : (stream.take width).length = width := by
        rw [List.length_take]
        omega
      rw [hlen] at hlt
      rw [List.length_take]
      omega

theorem length_of_mem_readFrames {width : Nat} (hw : 0 < width) {stream : List UInt8} :
    ∀ p ∈ readFrames width stream, p.length < 256 ^ width := by
  rw [readFrames_eq_all]
  exact Repeat.forall_mem_all (shrinks_readFrame hw)
    (fun _ _ _ hread => length_payload_of_readFrame hread) stream

/-- Every stream is the frames that are read from it, and a rest. -/
theorem exists_rest {width : Nat} (hw : 0 < width) (stream : List UInt8) :
    ∃ rest, stream = encodeFrames width (readFrames width stream) ++ rest := by
  induction stream using (shrinks_readFrame hw).induct with
  | fails stream hnone =>
    refine ⟨stream, ?_⟩
    rw [readFrames_eq hw, hnone]
    rfl
  | reads stream payload rest hread ih =>
    obtain ⟨rest', hrest⟩ := ih
    refine ⟨rest', ?_⟩
    rw [readFrames_eq hw, hread]
    show stream = encodeFrame width payload ++
      encodeFrames width (readFrames width rest) ++ rest'
    rw [List.append_assoc, ← hrest]
    exact encodeFrame_of_readFrame hread

/-- Encoding what was read gives back a part of the stream. -/
theorem encodeFrames_readFrames_prefix {width : Nat} (hw : 0 < width)
    (stream : List UInt8) :
    encodeFrames width (readFrames width stream) <+: stream := by
  obtain ⟨rest, hrest⟩ := exists_rest hw stream
  exact ⟨rest, hrest.symm⟩

/-! ## A stream that is cut off -/

theorem length_encodeFrame (width : Nat) (payload : List UInt8) :
    (encodeFrame width payload).length = width + payload.length := by
  rw [encodeFrame, List.length_append, length_sizeBytes]

/-- A part of a frame is none, wherever the cut falls. -/
theorem readFrame_take_encodeFrame {width n : Nat} {payload : List UInt8}
    (hpayload : payload.length < 256 ^ width) (hn : n < width + payload.length) :
    readFrame width ((encodeFrame width payload).take n) = none := by
  have hlen := length_encodeFrame width payload
  unfold readFrame
  by_cases hwidth : n < width
  · rw [if_pos (by rw [List.length_take]; omega)]
  · -- the size is there, and asks for more than what follows it
    have hsize : ((encodeFrame width payload).take n).take width =
        sizeBytes width payload.length := by
      rw [List.take_take, Nat.min_eq_left (by omega), encodeFrame,
        List.take_left' (length_sizeBytes _ _)]
    rw [if_neg (by rw [List.length_take]; omega)]
    dsimp only
    rw [hsize, sizeOfBytes_sizeBytes hpayload,
      if_pos (by rw [List.length_drop, List.length_take]; omega)]

/-- How many of some payloads have their frames within `n` bytes. -/
def framesWithin (width : Nat) : Nat → List (List UInt8) → Nat
  | _, [] => 0
  | n, p :: ps =>
    if width + p.length ≤ n then framesWithin width (n - (width + p.length)) ps + 1 else 0

theorem framesWithin_le_length (width n : Nat) (payloads : List (List UInt8)) :
    framesWithin width n payloads ≤ payloads.length := by
  induction payloads generalizing n with
  | nil => exact Nat.le_refl 0
  | cons p ps ih =>
    rw [framesWithin, List.length_cons]
    split
    · exact Nat.succ_le_succ (ih _)
    · exact Nat.zero_le _

/-- They are those that end within these bytes. -/
theorem lt_framesWithin_iff {width n : Nat} {payloads : List (List UInt8)} {j : Nat}
    (hj : j < payloads.length) :
    j < framesWithin width n payloads ↔
      (encodeFrames width (payloads.take (j + 1))).length ≤ n := by
  induction payloads generalizing n j with
  | nil => cases hj
  | cons p ps ih =>
    have hlen := length_encodeFrame width p
    rw [framesWithin, List.take_succ_cons, encodeFrames_cons, List.length_append, hlen]
    cases j with
    | zero =>
      rw [List.take_zero]
      show _ ↔ width + p.length + 0 ≤ n
      split <;> omega
    | succ j =>
      have hrest := @ih (n - (width + p.length)) j (Nat.lt_of_succ_lt_succ hj)
      split <;> omega

/-- All of them, if there is room for all. -/
theorem framesWithin_eq_length {width n : Nat} {payloads : List (List UInt8)}
    (h : (encodeFrames width payloads).length ≤ n) :
    framesWithin width n payloads = payloads.length := by
  refine Nat.le_antisymm (framesWithin_le_length width n payloads) ?_
  cases hlength : payloads.length with
  | zero => exact Nat.zero_le _
  | succ j =>
    refine (lt_framesWithin_iff (by omega)).mpr ?_
    rwa [← hlength, List.take_length]

/-- **A cut.** Of frames, and what is no part of a frame behind them, that are cut off after
`n` bytes, those are read that end before the cut. -/
theorem readFrames_take_append {width : Nat} (hw : 0 < width) {payloads : List (List UInt8)}
    (h : ∀ p ∈ payloads, p.length < 256 ^ width) {tail : List UInt8}
    (htail : ∀ m, readFrame width (tail.take m) = none) (n : Nat) :
    readFrames width ((encodeFrames width payloads ++ tail).take n) =
      payloads.take (framesWithin width n payloads) := by
  induction payloads generalizing n with
  | nil =>
    rw [encodeFrames_nil, List.nil_append, List.take_nil, readFrames_eq hw, htail]
  | cons p ps ih =>
    have hp := h p List.mem_cons_self
    have hlen := length_encodeFrame width p
    rw [encodeFrames_cons, List.append_assoc, framesWithin]
    by_cases hn : width + p.length ≤ n
    · -- the cut is behind the first frame
      have hrest := ih (fun q hq => h q (List.mem_cons_of_mem _ hq)) (n - (width + p.length))
      rw [if_pos hn, List.take_append, List.take_of_length_le (by omega), hlen,
        readFrames_eq hw, readFrame_encodeFrame hp, List.take_succ_cons]
      exact congrArg _ hrest
    · -- the cut is in the first frame, and nothing is read
      rw [if_neg hn, List.take_append_of_le_length (by omega), readFrames_eq hw,
        readFrame_take_encodeFrame hp (by omega)]
      rfl

theorem readFrame_nil {width : Nat} (hw : 0 < width) : readFrame width [] = none := if_pos hw

/-- A size without its payload is no frame, wherever it is cut off. -/
theorem readFrame_take_sizeBytes {width : Nat} {payload : List UInt8} (hne : payload ≠ [])
    (hpayload : payload.length < 256 ^ width) (m : Nat) :
    readFrame width ((sizeBytes width payload.length).take m) = none := by
  have hpos := List.length_pos_iff.mpr hne
  have hcut : sizeBytes width payload.length = (encodeFrame width payload).take width := by
    rw [encodeFrame, List.take_left' (length_sizeBytes _ _)]
  rw [hcut, List.take_take]
  exact readFrame_take_encodeFrame hpayload (by omega)

/-- Of frames that are cut off after `n` bytes, exactly those are read that end before the
cut. -/
theorem readFrames_take {width : Nat} (hw : 0 < width) {payloads : List (List UInt8)}
    (h : ∀ p ∈ payloads, p.length < 256 ^ width) (n : Nat) :
    ∃ m ≤ payloads.length,
      readFrames width ((encodeFrames width payloads).take n) = payloads.take m ∧
      ∀ j < payloads.length,
        (j < m ↔ (encodeFrames width (payloads.take (j + 1))).length ≤ n) := by
  have hread := readFrames_take_append hw h
    (fun m => by rw [List.take_nil]; exact readFrame_nil hw) n
  rw [List.append_nil] at hread
  exact ⟨_, framesWithin_le_length width n payloads, hread, fun j hj => lt_framesWithin_iff hj⟩

end Framing
