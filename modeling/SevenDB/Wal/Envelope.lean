import SevenDB.Common.ByteFrames

/-!
# The envelope of raft entries in the shared log

An envelope starts with five magic bytes. A kind, a raft index, a term and a sub-sequence number
follow, then the bytes of a command with their length in front, and the bytes of the raft entry with
theirs. Envelopes without the last part are read as well.
-/

namespace SevenDB.Wal

open SevenDB.Common

def uwalKindNormal : UInt8 := 0

def uwalKindHardState : UInt8 := 1

/-- The kind of the record at the front of a segment that carries the hash of the manifest. -/
def uwalKindManifest : UInt8 := 2

/-- The letters UWAL1. -/
def uwalMagic : List UInt8 := [85, 87, 65, 76, 49]

def isUWAL (b : List UInt8) : Bool := decide (b.take 5 = uwalMagic)

structure UwalRecord where
  kind : UInt8
  index : UInt64
  term : UInt64
  subSeq : UInt32
  cmd : List UInt8
  raftData : List UInt8
  deriving DecidableEq, Repr

inductive UwalError
  | notUwal
  | shortHeader
  | lengthExceedsPayload
  | raftLengthExceedsPayload
  deriving DecidableEq, Repr

/-- The bytes before the command. -/
def uwalHeader (r : UwalRecord) : List UInt8 :=
  uwalMagic ++ ([r.kind] ++ (putUint64 r.index ++ (putUint64 r.term ++ (putUint32 r.subSeq ++
    putUint32 (UInt32.ofNat r.cmd.length)))))

def encodeUWAL (r : UwalRecord) : List UInt8 :=
  uwalHeader r ++ (r.cmd ++ (putUint32 (UInt32.ofNat r.raftData.length) ++ r.raftData))

/-- Some bytes from an offset on. -/
def slice (b : List UInt8) (off count : ℕ) : List UInt8 := (b.drop off).take count

def decodeUWAL (b : List UInt8) : Except UwalError UwalRecord :=
  if isUWAL b = false then .error .notUwal
  else if b.length < 30 then .error .shortHeader
  else
    let ln := (uint32 (slice b 26 4)).toNat
    if b.length < 30 + ln then .error .lengthExceedsPayload
    else
      let found (raftData : List UInt8) : UwalRecord :=
        ⟨(slice b 5 1).headD 0, uint64 (slice b 6 8), uint64 (slice b 14 8), uint32 (slice b 22 4),
          slice b 30 ln, raftData⟩
      let off := 30 + ln
      if b.length < off + 4 then .ok (found [])
      else
        let rln := (uint32 (slice b off 4)).toNat
        if b.length < off + 4 + rln then .error .raftLengthExceedsPayload
        else .ok (found (slice b (off + 4) rln))

theorem slice_field {before field rest : List UInt8} {off count : ℕ} (hoff : before.length = off)
    (hcount : field.length = count) : slice (before ++ (field ++ rest)) off count = field := by
  rw [slice, List.drop_left' hoff, List.take_left' hcount]

section Decoding

variable (r : UwalRecord) (rest : List UInt8)

@[simp] theorem length_uwalHeader : (uwalHeader r).length = 30 := by
  simp only [uwalHeader, uwalMagic, List.length_append, length_putUint32, length_putUint64, List.length_cons,
    List.length_nil]

theorem length_encodeUWAL : (encodeUWAL r).length = 34 + r.cmd.length + r.raftData.length := by
  rw [encodeUWAL, List.length_append, List.length_append, List.length_append, length_uwalHeader,
    length_putUint32]
  omega

theorem isUWAL_header_append : isUWAL (uwalHeader r ++ rest) = true := by
  rw [isUWAL, decide_eq_true_iff, uwalHeader, List.append_assoc]
  exact List.take_left' rfl

theorem slice_header :
    slice (uwalHeader r ++ rest) 5 1 = [r.kind] ∧ slice (uwalHeader r ++ rest) 6 8 = putUint64 r.index ∧
      slice (uwalHeader r ++ rest) 14 8 = putUint64 r.term ∧
      slice (uwalHeader r ++ rest) 22 4 = putUint32 r.subSeq ∧
      slice (uwalHeader r ++ rest) 26 4 = putUint32 (UInt32.ofNat r.cmd.length) := by
  have hheader : uwalHeader r ++ rest = uwalMagic ++ ([r.kind] ++ (putUint64 r.index ++ (putUint64 r.term ++
      (putUint32 r.subSeq ++ (putUint32 (UInt32.ofNat r.cmd.length) ++ rest))))) := by
    simp only [uwalHeader, List.append_assoc]
  rw [hheader]
  refine ⟨slice_field rfl rfl, ?_, ?_, ?_, ?_⟩
  · rw [← List.append_assoc uwalMagic]
    exact slice_field rfl (length_putUint64 _)
  · rw [← List.append_assoc uwalMagic, ← List.append_assoc (uwalMagic ++ [r.kind])]
    exact slice_field (by simp [uwalMagic]) (length_putUint64 _)
  · rw [← List.append_assoc uwalMagic, ← List.append_assoc (uwalMagic ++ [r.kind]),
      ← List.append_assoc (uwalMagic ++ [r.kind] ++ putUint64 r.index)]
    exact slice_field (by simp [uwalMagic]) (length_putUint32 _)
  · rw [← List.append_assoc uwalMagic, ← List.append_assoc (uwalMagic ++ [r.kind]),
      ← List.append_assoc (uwalMagic ++ [r.kind] ++ putUint64 r.index),
      ← List.append_assoc (uwalMagic ++ [r.kind] ++ putUint64 r.index ++ putUint64 r.term)]
    exact slice_field (by simp [uwalMagic]) (length_putUint32 _)

theorem decodeUWAL_encodeUWAL (hcmd : r.cmd.length < 2 ^ 32) (hraft : r.raftData.length < 2 ^ 32) :
    decodeUWAL (encodeUWAL r) = .ok r := by
  obtain ⟨hkind, hindex, hterm, hsub, hlen⟩ :=
    slice_header r (r.cmd ++ (putUint32 (UInt32.ofNat r.raftData.length) ++ r.raftData))
  have hlength := length_encodeUWAL r
  have hcmdSlice : slice (encodeUWAL r) 30 r.cmd.length = r.cmd := slice_field (length_uwalHeader r) rfl
  have hraftLen : slice (encodeUWAL r) (30 + r.cmd.length) 4 = putUint32 (UInt32.ofNat r.raftData.length) := by
    rw [encodeUWAL, ← List.append_assoc (uwalHeader r)]
    exact slice_field (by simp) (length_putUint32 _)
  have hraftSlice : slice (encodeUWAL r) (30 + r.cmd.length + 4) r.raftData.length = r.raftData := by
    have hassoc : encodeUWAL r = uwalHeader r ++ r.cmd ++ putUint32 (UInt32.ofNat r.raftData.length) ++
        (r.raftData ++ []) := by simp [encodeUWAL]
    rw [hassoc]
    exact slice_field (by simp; omega) rfl
  rw [← encodeUWAL] at hkind hindex hterm hsub hlen
  unfold decodeUWAL
  rw [encodeUWAL, isUWAL_header_append, ← encodeUWAL, if_neg Bool.true_eq_false.mp, if_neg (by omega)]
  dsimp only
  rw [hlen, uint32_putUint32, UInt32.toNat_ofNat_of_lt' hcmd, if_neg (by omega), if_neg (by omega), hraftLen,
    uint32_putUint32, UInt32.toNat_ofNat_of_lt' hraft, if_neg (by omega), hkind, hindex, hterm, hsub, hcmdSlice,
    hraftSlice, uint64_putUint64, uint64_putUint64, uint32_putUint32]
  rfl

end Decoding

end SevenDB.Wal
