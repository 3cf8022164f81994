import SevenDB.Wal.Forge

/-!
# Reading the log of commands and raft entries

The segments are read in the order of their numbers. A replay of commands unwraps envelopes and
takes everything else for a command. A replay of items also gives what an envelope says about the
raft entry, and looks at the type of an element. Both skip the first records of segments. A header or
a payload that is not complete is an error, and a payload that is longer than the space for it makes
the reader panic. The search for the last index of a segment stops at the first frame it cannot read.
-/

namespace SevenDB.Wal

open SevenDB.Common

inductive ReplayError
  | readHeader
  | readData
  | crcMismatch
  | unmarshalElement
  | decodeUwal
  | unmarshalCommand
  | panics
  deriving DecidableEq, Repr

/-- What a replay of items hands out. -/
structure ReplayItem (C : Type) where
  index : UInt64
  term : UInt64
  subSeq : UInt32
  timestamp : ℤ
  cmd : C
  raftData : List UInt8
  deriving DecidableEq, Repr

variable {C : Type} (fmt : Format C)

def elementOf (f : RawFrame) : Except ReplayError Element :=
  if frameCapacity < f.payload.length then .error .panics
  else if fmt.checksum f.payload ≠ f.sum then .error .crcMismatch
  else
    match fmt.element.decode f.payload with
    | none => .error .unmarshalElement
    | some el => .ok el

/-- How a replay treats the end of a segment. -/
def replayEnd : Ending → Option ReplayError
  | .clean => none
  | .tornHeader => some .readHeader
  | .tornPayload size => if frameCapacity < size then some .panics else some .readData

/-- A segment that ends with a whole frame ends a replay without an error. -/
theorem replayEnd_clean : replayEnd .clean = none := rfl

def commandIn (bytes : List UInt8) : Except ReplayError C :=
  match fmt.command.decode bytes with
  | none => .error .unmarshalCommand
  | some c => .ok c

/-- What a replay of items makes of an element. -/
def itemIn (el : Element) : Except ReplayError (Option (ReplayItem C)) :=
  if el.elementType ≠ .command then .ok none
  else if isUWAL el.payload then
    match decodeUWAL el.payload with
    | .error _ => .error .decodeUwal
    | .ok r =>
      if r.kind = uwalKindManifest then .ok none
      else if r.kind = uwalKindHardState then .ok none
      else (commandIn fmt r.cmd).map fun c => some ⟨r.index, r.term, r.subSeq, el.timestamp, c, r.raftData⟩
  else (commandIn fmt el.payload).map fun c => some ⟨0, 0, 0, el.timestamp, c, el.payload⟩

/-- What a replay of commands makes of an element, whatever its type is. -/
def commandOf (el : Element) : Except ReplayError (Option C) :=
  if isUWAL el.payload then
    match decodeUWAL el.payload with
    | .error _ => .error .decodeUwal
    | .ok r =>
      if r.kind = uwalKindManifest then .ok none
      else if r.kind = uwalKindHardState then .ok none
      else (commandIn fmt r.cmd).map some
  else (commandIn fmt el.payload).map some

def itemReader : FrameReader (ReplayItem C) ReplayError where
  accept f := (elementOf fmt f).bind (itemIn fmt)
  atEnd := replayEnd
  atEnd_clean := replayEnd_clean

def commandReader : FrameReader C ReplayError where
  accept f := (elementOf fmt f).bind (commandOf fmt)
  atEnd := replayEnd
  atEnd_clean := replayEnd_clean

/-- The items that a replay hands out, and its error. -/
def replayItems (directory : List (ℕ × List UInt8)) : List (ReplayItem C) × Option ReplayError :=
  (itemReader fmt).readAll ((sortFiles id directory).map Prod.snd)

/-- The commands that a replay hands out, and its error. -/
def replayCommand (directory : List (ℕ × List UInt8)) : List C × Option ReplayError :=
  (commandReader fmt).readAll ((sortFiles id directory).map Prod.snd)

/-- The position of an element: the index of an envelope, or the sequence number of another element. The
first record of a segment has none. -/
def positionOf (el : Element) : Option UInt64 :=
  if el.elementType = .command ∧ isUWAL el.payload = true then
    match decodeUWAL el.payload with
    | .error _ => some el.lsn
    | .ok r => if r.kind = uwalKindManifest then none else some r.index
  else some el.lsn

/-- The last position in some frames, up to the first that cannot be read. -/
def lastPosition : UInt64 → List RawFrame → UInt64
  | last, [] => last
  | last, f :: rest =>
    if fmt.checksum f.payload ≠ f.sum then last
    else
      match fmt.element.decode f.payload with
      | none => last
      | some el => lastPosition ((positionOf el).getD last) rest

/-- The last position in a segment; an incomplete frame at its end is passed over. -/
def lastIndexOfSegment (segment : List UInt8) : UInt64 := lastPosition fmt 0 (scan segment).1

/-- The reader of positions. It stops at the first frame that it cannot read. -/
def positionReader : FrameReader UInt64 Unit where
  accept f :=
    if fmt.checksum f.payload ≠ f.sum then .error ()
    else
      match fmt.element.decode f.payload with
      | none => .error ()
      | some el => .ok (positionOf el)
  atEnd _ := none
  atEnd_clean := rfl

/-- The search for the last position gives the last one that the reader of positions finds. -/
theorem lastPosition_eq (last : UInt64) (frames : List RawFrame) (ending : Ending) :
    lastPosition fmt last frames = ((positionReader fmt).readFrames frames ending).1.getLastD last := by
  induction frames generalizing last with
  | nil => rfl
  | cons f rest ih =>
    rw [lastPosition, FrameReader.readFrames, positionReader]
    dsimp only
    by_cases hsum : fmt.checksum f.payload ≠ f.sum
    · rw [if_pos hsum, if_pos hsum]
      rfl
    · rw [if_neg hsum, if_neg hsum]
      cases fmt.element.decode f.payload with
      | none => rfl
      | some el =>
        dsimp only
        rw [ih]
        cases positionOf el with
        | none => rfl
        | some position =>
          rw [Option.getD_some]
          exact (List.getLastD_cons ..).symm

/-- The last position in a segment is the last one that the reader of positions finds. -/
theorem lastIndexOfSegment_eq (segment : List UInt8) :
    lastIndexOfSegment fmt segment = ((positionReader fmt).read segment).1.getLastD 0 :=
  lastPosition_eq fmt 0 _ _

section Frames

variable {fmt} {el : Element}

/-- The element in a frame is found when it fits the space for a frame. -/
theorem elementOf_encode (h : 8 + (fmt.element.encode el).length ≤ frameCapacity) :
    elementOf fmt ⟨fmt.checksum (fmt.element.encode el), fmt.element.encode el⟩ = .ok el := by
  rw [elementOf, if_neg (by dsimp only; omega), if_neg (not_not.mpr rfl), fmt.element.decode_encode]

theorem accept_positionReader_encode :
    (positionReader fmt).accept ⟨fmt.checksum (fmt.element.encode el), fmt.element.encode el⟩ =
      .ok (positionOf el) := by
  rw [positionReader]
  dsimp only
  rw [if_neg (not_not.mpr rfl), fmt.element.decode_encode]

theorem length_lt_of_fits {eb : List UInt8} (h : 8 + eb.length ≤ frameCapacity) : eb.length < 2 ^ 32 := by
  have hcapacity : frameCapacity = 10240 := rfl
  omega

theorem decodeUWAL_payload {r : UwalRecord} (hpayload : el.payload = encodeUWAL r)
    (h : 8 + (fmt.element.encode el).length ≤ frameCapacity) : decodeUWAL el.payload = .ok r := by
  have hlength := fmt.length_payload_le el
  rw [hpayload, length_encodeUWAL] at hlength
  have hbound := length_lt_of_fits h
  rw [hpayload]
  exact decodeUWAL_encodeUWAL r (by omega) (by omega)

theorem isUWAL_encodeUWAL (r : UwalRecord) : isUWAL (encodeUWAL r) = true := isUWAL_header_append r _

end Frames

end SevenDB.Wal
