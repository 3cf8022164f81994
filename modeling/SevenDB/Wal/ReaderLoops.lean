import SevenDB.Wal.ForgeReplay

/-!
# The loops that read segments

The readers of the log are loops that read a header, take a slice of a buffer for the payload, and index
into the payload. Here they are written with every access checked: a slice or an index that is out of
range panics, and a loop that needs more rounds than it is given is unfinished. No round is needed beyond
the number of bytes in a segment, the accesses within an envelope are always in range, and apart from the
buffer of fixed size the loops do what the readers of frames do.
-/

namespace SevenDB.Wal

open SevenDB.Common

/-- How a function ends: it returns, it panics, or it has used up the rounds it was given. -/
inductive Outcome (A : Type)
  | returns (result : A)
  | panics
  | unfinished
  deriving DecidableEq, Repr

namespace Outcome

variable {A B : Type}

/-- Go on with what was returned. -/
def bind (outcome : Outcome A) (next : A → Outcome B) : Outcome B :=
  match outcome with
  | .returns result => next result
  | .panics => .panics
  | .unfinished => .unfinished

/-- The result of an access that panics when it is out of range. -/
def ofOption : Option A → Outcome A
  | some result => .returns result
  | none => .panics

end Outcome

/-- The bytes between two offsets, as a slice expression takes them. -/
def sliceOf (b : List UInt8) (lo hi : ℕ) : Option (List UInt8) :=
  if lo ≤ hi ∧ hi ≤ b.length then some (slice b lo (hi - lo)) else none

theorem sliceOf_eq {b : List UInt8} {lo count : ℕ} (h : lo + count ≤ b.length) :
    sliceOf b lo (lo + count) = some (slice b lo count) := by
  rw [sliceOf, if_pos ⟨Nat.le_add_right _ _, h⟩, Nat.add_sub_cancel_left]

section Envelope

/-- Compare bytes from an index on with the given ones, one index after another. -/
def matchesFrom (b : List UInt8) : ℕ → List UInt8 → Option Bool
  | _, [] => some true
  | i, byte :: rest => (b[i]?).bind fun found => if found ≠ byte then some false else matchesFrom b (i + 1) rest

/-- The test for the magic, index by index. -/
def isUWALLoop (b : List UInt8) : Option Bool :=
  if b.length < uwalMagic.length then some false else matchesFrom b 0 uwalMagic

theorem matchesFrom_eq (b bytes : List UInt8) (i : ℕ) (h : i + bytes.length ≤ b.length) :
    matchesFrom b i bytes = some (decide (slice b i bytes.length = bytes)) := by
  induction bytes generalizing i with
  | nil => simp [matchesFrom, slice]
  | cons byte rest ih =>
    rw [List.length_cons] at h
    have hi : i < b.length := by omega
    have hslice : slice b i (rest.length + 1) = b[i] :: slice b (i + 1) rest.length := by
      rw [slice, slice, List.drop_eq_getElem_cons hi, List.take_succ_cons]
    rw [matchesFrom, List.getElem?_eq_getElem hi, Option.bind_some, List.length_cons, hslice, ih (i + 1) (by omega)]
    by_cases heq : b[i] = byte <;> simp [heq]

theorem isUWALLoop_eq (b : List UInt8) : isUWALLoop b = some (isUWAL b) := by
  rw [isUWALLoop]
  split
  · next hshort =>
    have hne : b.take 5 ≠ uwalMagic := by
      intro heq
      have hlength := congrArg List.length heq
      rw [List.length_take] at hlength
      have hmagic : uwalMagic.length = 5 := rfl
      omega
    simp [isUWAL, hne]
  · next hlong =>
    rw [matchesFrom_eq b uwalMagic 0 (by omega)]
    rfl

/-- The envelope in some bytes, read with checked slices. -/
def decodeUWALSliced (b : List UInt8) : Option (Except UwalError UwalRecord) :=
  (isUWALLoop b).bind fun wrapped =>
    if wrapped = false then some (.error .notUwal)
    else if b.length < 30 then some (.error .shortHeader)
    else
      (b[5]?).bind fun kind =>
      (sliceOf b 6 (6 + 8)).bind fun index =>
      (sliceOf b 14 (14 + 8)).bind fun term =>
      (sliceOf b 22 (22 + 4)).bind fun sub =>
      (sliceOf b 26 (26 + 4)).bind fun lnBytes =>
        let ln := (uint32 lnBytes).toNat
        if b.length < 30 + ln then some (.error .lengthExceedsPayload)
        else
          (sliceOf b 30 (30 + ln)).bind fun cmd =>
            let off := 30 + ln
            if b.length < off + 4 then some (.ok ⟨kind, uint64 index, uint64 term, uint32 sub, cmd, []⟩)
            else
              (sliceOf b off (off + 4)).bind fun rlnBytes =>
                let rln := (uint32 rlnBytes).toNat
                if b.length < off + 4 + rln then some (.error .raftLengthExceedsPayload)
                else
                  (sliceOf b (off + 4) (off + 4 + rln)).bind fun raft =>
                    some (.ok ⟨kind, uint64 index, uint64 term, uint32 sub, cmd, raft⟩)

theorem decodeUWALSliced_eq (b : List UInt8) : decodeUWALSliced b = some (decodeUWAL b) := by
  rw [decodeUWALSliced, isUWALLoop_eq, Option.bind_some, decodeUWAL]
  by_cases hwrapped : isUWAL b = false
  · rw [if_pos hwrapped, if_pos hwrapped]
  · rw [if_neg hwrapped, if_neg hwrapped]
    by_cases hshort : b.length < 30
    · rw [if_pos hshort, if_pos hshort]
    · have hkind : b[5]? = some ((slice b 5 1).headD 0) := by
        rw [List.getElem?_eq_getElem (by omega), slice, List.drop_eq_getElem_cons (by omega)]
        rfl
      rw [if_neg hshort, if_neg hshort, hkind, sliceOf_eq (by omega), sliceOf_eq (by omega), sliceOf_eq (by omega),
        sliceOf_eq (by omega)]
      simp only [Option.bind_some]
      split
      · rfl
      · next hln =>
        rw [sliceOf_eq (by omega), Option.bind_some]
        split
        · rfl
        · next hoff =>
          rw [sliceOf_eq (by omega), Option.bind_some]
          split
          · rfl
          · next hrln =>
            rw [sliceOf_eq (by omega), Option.bind_some]

end Envelope

/-- What reading a number of bytes gives: the bytes and what is left, the end of the file before the first
of them, or the end of the file after it. -/
inductive ReadResult
  | ok (bytes rest : List UInt8)
  | eof
  | unexpectedEOF

def readFull (count : ℕ) (bytes : List UInt8) : ReadResult :=
  if count ≤ bytes.length then .ok (bytes.take count) (bytes.drop count)
  else if bytes = [] then .eof
  else .unexpectedEOF

theorem readFull_of_le {count : ℕ} {bytes : List UInt8} (h : count ≤ bytes.length) :
    readFull count bytes = .ok (bytes.take count) (bytes.drop count) := if_pos h

theorem readFull_of_lt {count : ℕ} {bytes : List UInt8} (h : bytes.length < count) :
    readFull count bytes = if bytes = [] then .eof else .unexpectedEOF := if_neg (Nat.not_le.mpr h)

theorem readFull_header {header : List UInt8} (hheader : header.length = 8) (rest : List UInt8) :
    readFull 8 (header ++ rest) = .ok header rest := by
  rw [readFull_of_le (by rw [List.length_append]; omega), List.take_left' hheader, List.drop_left' hheader]

variable {C R : Type} (fmt : Format C)

/-- What the replay of items does with an element. -/
def itemBody (el : Element) : Option (Except ReplayError (Option (ReplayItem C))) :=
  if el.elementType ≠ .command then some (.ok none)
  else
    (isUWALLoop el.payload).bind fun wrapped =>
      if wrapped then
        (decodeUWALSliced el.payload).bind fun decoded =>
          match decoded with
          | .error _ => some (.error .decodeUwal)
          | .ok r =>
            if r.kind = uwalKindManifest then some (.ok none)
            else if r.kind = uwalKindHardState then some (.ok none)
            else some ((commandIn fmt r.cmd).map fun c =>
              some ⟨r.index, r.term, r.subSeq, el.timestamp, c, r.raftData⟩)
      else some ((commandIn fmt el.payload).map fun c => some ⟨0, 0, 0, el.timestamp, c, el.payload⟩)

/-- What the replay of commands does with an element. -/
def commandBody (el : Element) : Option (Except ReplayError (Option C)) :=
  (isUWALLoop el.payload).bind fun wrapped =>
    if wrapped then
      (decodeUWALSliced el.payload).bind fun decoded =>
        match decoded with
        | .error _ => some (.error .decodeUwal)
        | .ok r =>
          if r.kind = uwalKindManifest then some (.ok none)
          else if r.kind = uwalKindHardState then some (.ok none)
          else some ((commandIn fmt r.cmd).map some)
    else some ((commandIn fmt el.payload).map some)

/-- What the search for the last position makes of an element: the last position from then on. -/
def positionBody (last : UInt64) (el : Element) : Option UInt64 :=
  if el.elementType = .command then
    (isUWALLoop el.payload).bind fun wrapped =>
      if wrapped then
        (decodeUWALSliced el.payload).bind fun decoded =>
          match decoded with
          | .error _ => some el.lsn
          | .ok r => if r.kind = uwalKindManifest then some last else some r.index
      else some el.lsn
  else some el.lsn

/-- The loop of a replay over a segment. The payload is read into a slice of a buffer of fixed size. -/
def replayLoop (body : Element → Option (Except ReplayError (Option R))) :
    ℕ → List UInt8 → Outcome (List R × Option ReplayError)
  | 0, _ => .unfinished
  | rounds + 1, bytes =>
    match readFull 8 bytes with
    | .eof => .returns ([], none)
    | .unexpectedEOF => .returns ([], some .readHeader)
    | .ok header rest =>
      let entrySize := (uint32 (header.drop 4)).toNat
      if frameCapacity < entrySize then .panics
      else
        match readFull entrySize rest with
        | .eof | .unexpectedEOF => .returns ([], some .readData)
        | .ok eb rest =>
          if fmt.checksum eb ≠ uint32 (header.take 4) then .returns ([], some .crcMismatch)
          else
            match fmt.element.decode eb with
            | none => .returns ([], some .unmarshalElement)
            | some el =>
              (Outcome.ofOption (body el)).bind fun result =>
                match result with
                | .error e => .returns ([], some e)
                | .ok none => replayLoop body rounds rest
                | .ok (some record) =>
                  (replayLoop body rounds rest).bind fun later => .returns (record :: later.1, later.2)

/-- The loop over the segments, which ends at the first error. -/
def replaySegments (body : Element → Option (Except ReplayError (Option R))) :
    List (List UInt8) → Outcome (List R × Option ReplayError)
  | [] => .returns ([], none)
  | bytes :: rest =>
    (replayLoop fmt body (bytes.length + 1) bytes).bind fun result =>
      match result with
      | (records, some e) => .returns (records, some e)
      | (records, none) =>
        (replaySegments body rest).bind fun later => .returns (records ++ later.1, later.2)

/-- The loop of the search for the last position. Its buffer grows with the payload. -/
def lastIndexLoop : ℕ → UInt64 → List UInt8 → Outcome UInt64
  | 0, _, _ => .unfinished
  | rounds + 1, last, bytes =>
    match readFull 8 bytes with
    | .eof | .unexpectedEOF => .returns last
    | .ok header rest =>
      match readFull (uint32 (header.drop 4)).toNat rest with
      | .eof | .unexpectedEOF => .returns last
      | .ok eb rest =>
        if fmt.checksum eb ≠ uint32 (header.take 4) then .returns last
        else
          match fmt.element.decode eb with
          | none => .returns last
          | some el => (Outcome.ofOption (positionBody last el)).bind fun last => lastIndexLoop rounds last rest

section Bodies

variable (el : Element)

theorem itemBody_eq : itemBody fmt el = some (itemIn fmt el) := by
  rw [itemBody, itemIn, isUWALLoop_eq, decodeUWALSliced_eq]
  simp only [Option.bind_some]
  by_cases htype : el.elementType ≠ .command
  · rw [if_pos htype, if_pos htype]
  · rw [if_neg htype, if_neg htype]
    by_cases hwrapped : isUWAL el.payload = true
    · rw [if_pos hwrapped, if_pos hwrapped]
      cases decodeUWAL el.payload with
      | error e => rfl
      | ok r =>
        dsimp only
        split
        · rfl
        · split <;> rfl
    · rw [if_neg hwrapped, if_neg hwrapped]

theorem commandBody_eq : commandBody fmt el = some (commandOf fmt el) := by
  rw [commandBody, commandOf, isUWALLoop_eq, decodeUWALSliced_eq]
  simp only [Option.bind_some]
  by_cases hwrapped : isUWAL el.payload = true
  · rw [if_pos hwrapped, if_pos hwrapped]
    cases decodeUWAL el.payload with
    | error e => rfl
    | ok r =>
      dsimp only
      split
      · rfl
      · split <;> rfl
  · rw [if_neg hwrapped, if_neg hwrapped]

theorem positionBody_eq (last : UInt64) : positionBody last el = some ((positionOf el).getD last) := by
  rw [positionBody, positionOf, isUWALLoop_eq, decodeUWALSliced_eq]
  simp only [Option.bind_some]
  by_cases htype : el.elementType = .command
  · by_cases hwrapped : isUWAL el.payload = true
    · rw [if_pos htype, if_pos hwrapped, if_pos ⟨htype, hwrapped⟩]
      cases decodeUWAL el.payload with
      | error e => rfl
      | ok r =>
        dsimp only
        split <;> rfl
    · rw [if_pos htype, if_neg hwrapped, if_neg fun hboth => hwrapped hboth.2, Option.getD_some]
  · rw [if_neg htype, if_neg fun hboth => htype hboth.1, Option.getD_some]

end Bodies

end SevenDB.Wal
