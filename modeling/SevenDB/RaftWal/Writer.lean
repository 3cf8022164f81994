import Mathlib.Data.Char
import Mathlib.Data.List.Lex
import SevenDB.Common.BufferedFile
import SevenDB.Common.ByteCodec
import SevenDB.Common.FrameReader

/-!
# The shadow log of raft entries

The writer appends envelopes to the open segment of a directory, each as a frame. It goes on to the
next segment before an entry whose index does not follow the last one, after a segment has become
too long, and after a fixed number of appends where that is asked for. The readers go through the
segments in the order of their file names. How an envelope is put into bytes and the checksum of a
frame are parameters, and writing to a segment does not fail.
-/

namespace SevenDB.RaftWal

open SevenDB.Common

inductive EntryKind
  | normal
  | confChange
  | noop
  | hardState
  deriving DecidableEq, Repr

/-- What the log holds about a raft entry or a hard state. -/
structure Envelope where
  raftIndex : UInt64
  raftTerm : UInt64
  kind : EntryKind
  appBytes : List UInt8
  appCrc : UInt32
  flags : UInt32
  namespaceName : String
  bucket : String
  opcode : UInt32
  sequence : UInt64
  deriving DecidableEq, Repr

/-- The settings of a writer; zero stands for the default of the first two, and for no forced
rotation. -/
structure Config where
  bufMB : ℕ
  segmentMaxBytes : ℕ
  forceRotateEvery : ℕ
  strictSync : Bool

/-- The size of the buffer in front of a segment. -/
def Config.bufSize (cfg : Config) : ℕ := if cfg.bufMB = 0 then 1024 * 1024 else cfg.bufMB * 1024 * 1024

/-- The length at which a segment is left. -/
def Config.segmentMaxBytesOrDefault (cfg : Config) : ℕ :=
  if 0 < cfg.segmentMaxBytes then cfg.segmentMaxBytes else 64 * 1024 * 1024

/-- A writer with its directory: the segments that are not open, and the open one. -/
structure Writer where
  files : List (ℕ × List UInt8)
  segIdx : ℕ
  out : BufferedFile
  lastIndex : UInt64
  appendCount : ℕ
  closed : Bool
  deriving DecidableEq, Repr

namespace Writer

/-- The segment files as a reader finds them. -/
def directory (w : Writer) : List (ℕ × List UInt8) := w.files ++ [(w.segIdx, w.out.file)]

/-- The segments with what is still in the buffer. -/
def contents (w : Writer) : List (ℕ × List UInt8) := w.files ++ [(w.segIdx, w.out.content)]

end Writer

/-- Open the segment with the highest number, or the first one in an empty directory. -/
def newWriter (cfg : Config) (directory : List (ℕ × List UInt8)) : Writer :=
  let segIdx := (directory.map Prod.fst).foldl max 0
  { files := directory.filter fun file => file.1 ≠ segIdx
    segIdx := segIdx
    out := .openAt cfg.bufSize (((directory.find? fun file => file.1 = segIdx).map Prod.snd).getD [])
    lastIndex := 0
    appendCount := 0
    closed := false }

namespace Writer

/-- Flush and leave the open segment and open the next one. -/
def rotateLocked (w : Writer) : Writer :=
  { w with
    files := w.files ++ [(w.segIdx, (w.out.flush none).file)]
    segIdx := w.segIdx + 1
    out := .openAt w.out.capacity [] }

/-- The length of the open segment with what is in the buffer. -/
def currentOffset (w : Writer) : ℕ := w.out.file.length + w.out.buf.length

/-- An entry does not follow the last one. -/
def Conflicts (w : Writer) (raftIndex : UInt64) : Prop := w.lastIndex ≠ 0 ∧ raftIndex ≠ w.lastIndex + 1

instance (w : Writer) (raftIndex : UInt64) : Decidable (w.Conflicts raftIndex) :=
  inferInstanceAs (Decidable (_ ∧ _))

section Appending

variable (cfg : Config) (checksum : List UInt8 → UInt32)

/-- Go on to the next segment where a fixed number of appends asks for it. -/
def forceRotate (w : Writer) : Writer :=
  if 0 < cfg.forceRotateEvery then
    let w := { w with appendCount := w.appendCount + 1 }
    if w.appendCount % cfg.forceRotateEvery = 0 then w.rotateLocked else w
  else w

/-- Append a payload to the open segment, and go on to the next segment where that is due. -/
def writeFrame (w : Writer) (payload : List UInt8) : Writer :=
  let offsetBefore := w.currentOffset
  let out := w.out.write none (frame checksum payload)
  let w := { w with out := if cfg.strictSync then (out.flush none).fsync else out }
  if cfg.segmentMaxBytesOrDefault ≤ offsetBefore + (8 + payload.length) then w.rotateLocked.forceRotate cfg
  else w.forceRotate cfg

/-- Append a marshalled envelope at a raft index; `none` is an error. -/
def appendEnvelope (w : Writer) (raftIndex : UInt64) (payload : List UInt8) : Option Writer :=
  if w.closed then none
  else
    let w := if w.Conflicts raftIndex then w.rotateLocked else w
    some ({ w with lastIndex := raftIndex }.writeFrame cfg checksum payload)

/-- Append a marshalled hard state; it does not move the last index. -/
def appendHardState (w : Writer) (payload : List UInt8) : Option Writer :=
  if w.closed then none else some (w.writeFrame cfg checksum payload)

end Appending

def close (w : Writer) : Writer :=
  if w.closed then w else { w with out := (w.out.flush none).fsync, closed := true }

end Writer

section Reading

inductive ScanError
  | unexpectedEOF
  | crcMismatch
  | malformed
  deriving DecidableEq, Repr

variable (codec : ByteCodec Envelope) (checksum : List UInt8 → UInt32)

/-- How the scans of a segment treat a frame: an empty one is passed over, and a torn payload is an
error where a torn header is not. -/
def segmentReader : FrameReader Envelope ScanError where
  accept f :=
    if f.payload = [] then .ok none
    else if checksum f.payload ≠ f.sum then .error .crcMismatch
    else
      match codec.decode f.payload with
      | none => .error .malformed
      | some env => .ok (some env)
  atEnd
    | .clean | .tornHeader => none
    | .tornPayload _ => some .unexpectedEOF
  atEnd_clean := rfl

def segmentFileName (segIdx : ℕ) : List Char := "seg-".toList ++ Nat.toDigits 10 segIdx ++ ".wal".toList

variable (directory : List (ℕ × List UInt8))

/-- The envelopes that a replay hands out, in the order of the file names, and its error. -/
def replay : List Envelope × Option ScanError :=
  (segmentReader codec checksum).readAll ((sortFiles segmentFileName directory).map Prod.snd)

/-- What a scan of all segments collects, unless it stops with an error. -/
def collect {T : Type} (pick : List Envelope → T) : Except ScanError T :=
  match replay codec checksum directory with
  | (_, some e) => .error e
  | (envs, none) => .ok (pick envs)

/-- The bytes of the last hard state, where empty bytes count as none. -/
def lastHardState (envs : List Envelope) : Option (List UInt8) :=
  let hs := envs.foldl (fun hs env => if env.kind = .hardState then env.appBytes else hs) []
  if hs = [] then none else some hs

/-- The last elements of a list, up to a limit. -/
def lastUpTo {T : Type} (limit : ℕ) (all : List T) : List T :=
  if limit < all.length then all.drop (all.length - limit) else all

def replayLastHardState : Except ScanError (Option (List UInt8)) :=
  collect codec checksum directory lastHardState

/-- The indices and checksums of the last normal envelopes. -/
def tailLogicalTuples (limit : ℕ) : Except ScanError (List (UInt64 × UInt32)) :=
  if limit = 0 then .ok []
  else collect codec checksum directory fun envs =>
    lastUpTo limit ((envs.filter (·.kind = .normal)).map fun env => (env.raftIndex, env.appCrc))

def tailLogicalCRCs (limit : ℕ) : Except ScanError (List UInt32) :=
  if limit = 0 then .ok []
  else collect codec checksum directory fun envs =>
    lastUpTo limit ((envs.filter (·.kind = .normal)).map Envelope.appCrc)

def maxIndexInSegment (segment : List UInt8) : Except ScanError UInt64 :=
  match (segmentReader codec checksum).read segment with
  | (_, some e) => .error e
  | (envs, none) => .ok (envs.foldl (fun max env => if max < env.raftIndex then env.raftIndex else max) 0)

end Reading

def EntryKind.number : EntryKind → ℕ
  | .normal => 0
  | .confChange => 1
  | .noop => 2
  | .hardState => 3

def EntryKind.ofNumber : ℕ → EntryKind
  | 0 => .normal
  | 1 => .confChange
  | 2 => .noop
  | _ => .hardState

/-- A text as the numbers of its characters. -/
def textNumbers (text : String) : List ℕ := text.toList.map Char.toNat

def ofTextNumbers (numbers : List ℕ) : String := String.ofList (numbers.map Char.ofNat)

theorem ofTextNumbers_textNumbers (text : String) : ofTextNumbers (textNumbers text) = text := by
  have hchars : (text.toList.map Char.toNat).map Char.ofNat = text.toList := by
    rw [List.map_map]
    exact List.map_id'' Char.ofNat_toNat _
  rw [ofTextNumbers, textNumbers, hchars, String.ofList_toList]

/-- Numbers in tallies and the application bytes at the end, one way to put an envelope into bytes. -/
def tallyEnvelope : ByteCodec Envelope where
  encode e :=
    putTallies [e.raftIndex.toNat, e.raftTerm.toNat, e.kind.number, e.appCrc.toNat, e.flags.toNat,
      e.opcode.toNat, e.sequence.toNat] ++
    (putTallies (textNumbers e.namespaceName) ++ (putTallies (textNumbers e.bucket) ++ e.appBytes))
  decode bytes :=
    (takeTallies bytes).bind fun numbers =>
      (takeTallies numbers.2).bind fun scope =>
        (takeTallies scope.2).bind fun bucket =>
          match numbers.1 with
          | [index, term, kind, crc, flags, opcode, sequence] =>
            some ⟨.ofNat index, .ofNat term, .ofNumber kind, bucket.2, .ofNat crc, .ofNat flags,
              ofTextNumbers scope.1, ofTextNumbers bucket.1, .ofNat opcode, .ofNat sequence⟩
          | _ => none
  decode_encode e := by
    have hkind : EntryKind.ofNumber e.kind.number = e.kind := by cases e.kind <;> rfl
    rw [takeTallies_putTallies, Option.bind_some, takeTallies_putTallies, Option.bind_some,
      takeTallies_putTallies, Option.bind_some]
    simp only [UInt64.ofNat_toNat, UInt32.ofNat_toNat, hkind, ofTextNumbers_textNumbers]

end SevenDB.RaftWal
