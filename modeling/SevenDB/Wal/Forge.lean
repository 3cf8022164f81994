import SevenDB.Common.BufferedFile
import SevenDB.Common.ByteCodec
import SevenDB.Common.FrameReader
import SevenDB.Wal.Envelope

/-!
# The log of commands and raft entries

One log per process takes the commands of clients and the entries of raft. Each is wrapped into an
element and written as a frame to the open segment, which is left for the next one when it would
become too long, and from time to time. A new segment starts with a record that carries the hash of
the manifest. A hard state is only staged; the next sync writes it into a file of its own, after the
segment. How elements and commands are put into bytes and the checksum of a frame are parameters. A
call reads the clock, and file operations that it needs may fail. Not modelled: a failing open or
close of a segment in a rotation, and sequence numbers from 2^64 on, which wrap.
-/

namespace SevenDB.Wal

open SevenDB.Common

inductive ElementType
  | command
  | other (number : ℕ)
  deriving DecidableEq, Repr

/-- What a frame of the log holds. -/
structure Element where
  lsn : UInt64
  timestamp : ℤ
  elementType : ElementType
  payload : List UInt8
  deriving DecidableEq, Repr

/-- How elements and commands are put into bytes: an element takes at least the bytes of its payload, and
no command looks like an envelope. -/
structure Format (C : Type) where
  element : ByteCodec Element
  command : ByteCodec C
  checksum : List UInt8 → UInt32
  length_payload_le : ∀ el, el.payload.length ≤ (element.encode el).length
  command_not_uwal : ∀ c, isUWAL (command.encode c) = false

/-- The format that a manifest declares. -/
inductive WALFormat
  | legacy
  | uwal1
  | mixed
  deriving DecidableEq, Repr

inductive EnforceMode
  | warn
  | strict
  deriving DecidableEq, Repr

/-- The manifest of a log, as far as appending depends on it. -/
structure Manifest where
  format : WALFormat
  uwalVersion : ℕ
  enforce : EnforceMode
  deriving DecidableEq, Repr

/-- A manifest declares the format of envelopes. -/
def Manifest.isUWAL1 (m : Manifest) : Bool := decide (m.format = .uwal1 ∧ m.uwalVersion = 1)

structure ForgeConfig where
  bufferSizeMB : ℕ
  maxSegmentSizeBytes : UInt32

def defaultBufferSize : ℕ := 4096

/-- The size of the buffer in front of the segment that a start opens. -/
def ForgeConfig.bufferSize (cfg : ForgeConfig) : ℕ :=
  if cfg.bufferSizeMB = 0 then defaultBufferSize else cfg.bufferSizeMB * 1024 * 1024

/-- The space in which a frame is put together. -/
def frameCapacity : ℕ := 10 * 1024

/-- The log with its directory: the segments that are not open, the open one, the staged hard state, and
the hard state file as it is found and as it is known to survive a crash, and whether the context of the
background work is cancelled. -/
structure Forge where
  maxSegmentSizeBytes : UInt32
  files : List (ℕ × List UInt8)
  csIdx : ℕ
  out : BufferedFile
  csSize : UInt32
  lsn : ℕ
  durableLSN : ℕ
  pendingHS : List UInt8
  hardState : Option (List UInt8)
  durableHS : Option (List UInt8)
  manifest : Manifest
  manifestHash : List UInt8
  cancelled : Bool
  deriving DecidableEq, Repr

/-- Where persisting a hard state fails: before its file is renamed into place, or after that. -/
inductive HardStateFault
  | beforeRename
  | afterRename
  deriving DecidableEq, Repr

/-- The file operations that fail: the open segment takes only so many bytes of a write or a flush, the
next segment only so many of its first record, syncing the segment fails, or persisting a hard state. -/
structure Faults where
  write : Option ℕ
  flush : Option ℕ
  preamble : Option ℕ
  fsync : Bool
  hardState : Option HardStateFault
  deriving DecidableEq, Repr

def Faults.clear : Faults := ⟨none, none, none, false, none⟩

/-- The times that a call reads: for the first record of a segment, and for its element. -/
structure Times where
  preamble : ℤ
  element : ℤ
  deriving DecidableEq, Repr

inductive ForgeError
  | flush
  | fsync
  | hardState
  | manifestForbids
  | nilCommand
  | emptyHardState
  deriving DecidableEq, Repr

inductive Reply
  | returnsNil
  | returnsError (e : ForgeError)
  | panics
  deriving DecidableEq, Repr

namespace Forge

/-- The segment files as a reader finds them. -/
def directory (wl : Forge) : List (ℕ × List UInt8) := wl.files ++ [(wl.csIdx, wl.out.file)]

/-- The segments with what is still in the buffer. -/
def contents (wl : Forge) : List (ℕ × List UInt8) := wl.files ++ [(wl.csIdx, wl.out.content)]

/-- The segments as far as they survive a crash. -/
def durable (wl : Forge) : List (ℕ × List UInt8) := wl.files ++ [(wl.csIdx, wl.out.durable)]

def syncHardState (wl : Forge) (fault : Option HardStateFault) : Forge × Reply :=
  if wl.pendingHS = [] then (wl, .returnsNil)
  else
    match fault with
    | some .beforeRename => (wl, .returnsError .hardState)
    | some .afterRename => ({ wl with hardState := some wl.pendingHS }, .returnsError .hardState)
    | none =>
      ({ wl with hardState := some wl.pendingHS, durableHS := some wl.pendingHS, pendingHS := [] }, .returnsNil)

/-- Flush the buffer and sync the open segment, then persist the staged hard state. -/
def sync (wl : Forge) (faults : Faults) : Forge × Reply :=
  let wl := { wl with out := wl.out.flush faults.flush }
  if wl.out.failed then (wl, .returnsError .flush)
  else if faults.fsync then (wl, .returnsError .fsync)
  else { wl with out := wl.out.fsync }.syncHardState faults.hardState

/-- Sync unless everything that was appended is known to be synced already. -/
def syncNeeded (wl : Forge) (faults : Faults) : Forge × Reply :=
  if wl.lsn ≤ wl.durableLSN then (wl, .returnsNil)
  else
    match wl.sync faults with
    | (synced, .returnsNil) => ({ synced with durableLSN := max wl.lsn wl.durableLSN }, .returnsNil)
    | failed => failed

section Writing

variable {C : Type} (fmt : Format C)

/-- Write the bytes of an element to the open segment. Errors of writing are not returned. -/
def writePayloadLockedNoRotate (wl : Forge) (limit : Option ℕ) (eb : List UInt8) : Forge × Reply :=
  if frameCapacity < 8 + eb.length then (wl, .panics)
  else
    ({ wl with
      out := wl.out.write limit (frame fmt.checksum eb)
      csSize := wl.csSize + UInt32.ofNat (8 + eb.length) }, .returnsNil)

/-- The bytes of the first record of a segment. -/
def preambleBytes (wl : Forge) (time : ℤ) : List UInt8 :=
  fmt.element.encode ⟨0, time, .command, encodeUWAL ⟨uwalKindManifest, 0, 0, 0, wl.manifestHash, []⟩⟩

/-- Write the first record of an empty segment, unless there is no hash. -/
def writeManifestPreambleLocked (wl : Forge) (limit : Option ℕ) (time : ℤ) : Forge × Reply :=
  if wl.manifestHash = [] ∨ wl.csSize ≠ 0 then (wl, .returnsNil)
  else wl.writePayloadLockedNoRotate fmt limit (wl.preambleBytes fmt time)

/-- Write the first record of an empty segment and flush it. -/
def startSegment (wl : Forge) (limit : Option ℕ) (time : ℤ) : Forge × Reply :=
  match wl.writeManifestPreambleLocked fmt limit time with
  | (wl, .returnsNil) =>
    let wl := { wl with out := wl.out.flush limit }
    if wl.out.failed then (wl, .returnsError .flush) else (wl, .returnsNil)
  | stopped => stopped

/-- Sync and leave the open segment and start the next one. -/
def rotateLog (wl : Forge) (faults : Faults) (time : ℤ) : Forge × Reply :=
  match wl.sync faults with
  | (wl, .returnsNil) =>
    { wl with
      files := wl.files ++ [(wl.csIdx, wl.out.file)]
      csIdx := wl.csIdx + 1
      out := .openAt defaultBufferSize []
      csSize := 0 }.startSegment fmt faults.preamble time
  | stopped => stopped

/-- Leave the open segment if it would become too long. -/
def rotateLogIfNeeded (wl : Forge) (faults : Faults) (time : ℤ) (entrySize : UInt32) : Forge × Reply :=
  if wl.maxSegmentSizeBytes < wl.csSize + entrySize then wl.rotateLog fmt faults time else (wl, .returnsNil)

/-- Write the bytes of an element, to the next segment if need be. -/
def writePayloadLocked (wl : Forge) (faults : Faults) (time : ℤ) (eb : List UInt8) : Forge × Reply :=
  match wl.rotateLogIfNeeded fmt faults time (UInt32.ofNat (8 + eb.length)) with
  | (wl, .returnsNil) => wl.writePayloadLockedNoRotate fmt faults.write eb
  | stopped => stopped

/-- Wrap a payload into the next element and write it. -/
def writeElement (wl : Forge) (faults : Faults) (times : Times) (payload : List UInt8) : Forge × Reply :=
  let wl := { wl with lsn := wl.lsn + 1 }
  wl.writePayloadLocked fmt faults times.preamble
    (fmt.element.encode ⟨UInt64.ofNat wl.lsn, times.element, .command, payload⟩)

def logCommand (wl : Forge) (faults : Faults) (times : Times) (c : C) : Forge × Reply :=
  wl.writeElement fmt faults times (fmt.command.encode c)

/-- A property that writing the first record and flushing keep holds after a segment is started. -/
theorem startSegment_induction {P : Forge → Prop} {wl : Forge} {limit : Option ℕ} {time : ℤ} (hsame : P wl)
    (hwrite : P (wl.writePayloadLockedNoRotate fmt limit (wl.preambleBytes fmt time)).1)
    (hflush : ∀ middle, P middle → P { middle with out := middle.out.flush limit }) :
    P (wl.startSegment fmt limit time).1 := by
  have hpreamble : P (wl.writeManifestPreambleLocked fmt limit time).1 := by
    unfold writeManifestPreambleLocked
    split
    · exact hsame
    · exact hwrite
  unfold startSegment
  split
  · next heq =>
    rw [heq] at hpreamble
    dsimp only
    split <;> exact hflush _ hpreamble
  · exact hpreamble

end Writing

end Forge

/-- What is appended as a normal entry; a missing command is an error. -/
structure NormalEntry (C : Type) where
  index : UInt64
  term : UInt64
  subSeq : UInt32
  cmd : Option C
  raftData : List UInt8

namespace Forge

variable {C : Type} (fmt : Format C)

/-- Append a normal entry. A strict manifest of another format forbids it. -/
def appendNormal (wl : Forge) (faults : Faults) (times : Times) (e : NormalEntry C) : Forge × Reply :=
  if wl.manifest.enforce = .strict ∧ wl.manifest.isUWAL1 = false then (wl, .returnsError .manifestForbids)
  else
    match e.cmd with
    | none => (wl, .returnsError .nilCommand)
    | some c =>
      wl.writeElement fmt faults times
        (encodeUWAL ⟨uwalKindNormal, e.index, e.term, e.subSeq, fmt.command.encode c, e.raftData⟩)

/-- Stage a hard state for the next sync. -/
def appendHardState (wl : Forge) (hardState : List UInt8) : Forge × Reply :=
  if hardState = [] then (wl, .returnsError .emptyHardState)
  else ({ wl with pendingHS := hardState }, .returnsNil)

/-- Start on what a directory holds: the segment with the highest number is opened, and started if it has
no length. The manifest has been accepted before. -/
def init (cfg : ForgeConfig) (manifest : Manifest) (manifestHash : List UInt8) (limit : Option ℕ) (time : ℤ)
    (directory : List (ℕ × List UInt8)) (hardState : Option (List UInt8)) : Forge × Reply :=
  let sorted := sortFiles id directory
  let last := sorted.getLast?.getD (0, [])
  let wl : Forge :=
    { maxSegmentSizeBytes := cfg.maxSegmentSizeBytes
      files := sorted.dropLast
      csIdx := last.1
      out := .openAt cfg.bufferSize last.2
      csSize := UInt32.ofNat last.2.length
      lsn := 0
      durableLSN := 0
      pendingHS := []
      hardState := hardState
      durableHS := hardState
      manifest := manifest
      manifestHash := manifestHash
      cancelled := false }
  if wl.csSize = 0 then wl.startSegment fmt limit time else (wl, .returnsNil)

/-- Stop: cancel the context, and sync unless the context is cancelled. -/
def stop (wl : Forge) (faults : Faults) : Forge :=
  let wl := { wl with cancelled := true }
  if wl.cancelled then wl else (wl.sync faults).1

def replayLastHardState (wl : Forge) : Option (List UInt8) := wl.hardState

end Forge

def ElementType.number : ElementType → ℕ
  | .command => 0
  | .other number => number + 1

def ElementType.ofNumber : ℕ → ElementType
  | 0 => .command
  | number + 1 => .other number

/-- Numbers in tallies and the payload at the end, one way to put an element into bytes. -/
def tallyElement : ByteCodec Element where
  encode el :=
    putTallies [el.lsn.toNat, el.timestamp.toNat, (-el.timestamp).toNat, el.elementType.number] ++ el.payload
  decode bytes :=
    (takeTallies bytes).bind fun numbers =>
      match numbers.1 with
      | [lsn, after, before, type] => some ⟨.ofNat lsn, after - before, .ofNumber type, numbers.2⟩
      | _ => none
  decode_encode el := by
    have htype : ElementType.ofNumber el.elementType.number = el.elementType := by cases el.elementType <;> rfl
    have htime : (el.timestamp.toNat : ℤ) - ((-el.timestamp).toNat : ℤ) = el.timestamp := by omega
    rw [takeTallies_putTallies, Option.bind_some]
    simp only [UInt64.ofNat_toNat, htype, htime]

/-- Commands that are numbers, put into bytes as tallies, and a checksum that only looks at the length. -/
def tallyFormat : Format ℕ where
  element := tallyElement
  command := ⟨putTally, fun bytes => (takeTally bytes).map Prod.fst, fun n => by
    rw [← List.append_nil (putTally n), takeTally_putTally]
    rfl⟩
  checksum payload := UInt32.ofNat payload.length
  length_payload_le el := by
    rw [tallyElement, List.length_append]
    exact Nat.le_add_left _ _
  command_not_uwal n := by
    cases n with
    | zero => rfl
    | succ n => simp [isUWAL, putTally, uwalMagic, List.replicate_succ]

end SevenDB.Wal
