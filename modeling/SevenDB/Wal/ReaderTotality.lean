import SevenDB.Wal.ReaderLoops

/-!
# Which bytes the readers of the log can take

The search for the last position returns on all bytes. The replays return on a directory exactly when
every header that they reach announces a payload that fits their buffer; otherwise they panic.
-/

namespace SevenDB.Wal

open SevenDB.Common

variable {C R : Type} (fmt : Format C)

/-- A reader of elements: frames are checked in the same way, whatever is made of the element. -/
def elementReader (accept : Element → Except ReplayError (Option R)) : FrameReader R ReplayError where
  accept f := (elementOf fmt f).bind accept
  atEnd := replayEnd
  atEnd_clean := replayEnd_clean

/-- What a replay returns: the records and the error, unless it has panicked. -/
def Outcome.ofRead (result : List R × Option ReplayError) : Outcome (List R × Option ReplayError) :=
  if result.2 = some .panics then .panics else .returns result

section Loops

variable {fmt} {accept : Element → Except ReplayError (Option R)}
  {body : Element → Option (Except ReplayError (Option R))}

/-- The check of a frame panics exactly when its payload does not fit the buffer. -/
theorem elementOf_panics_iff (fmt : Format C) (f : RawFrame) :
    elementOf fmt f = .error .panics ↔ frameCapacity < f.payload.length := by
  rw [elementOf]
  by_cases hlarge : frameCapacity < f.payload.length
  · simp [hlarge]
  · by_cases hsum : fmt.checksum f.payload ≠ f.sum
    · simp [hlarge, hsum]
    · rw [if_neg hlarge, if_neg hsum]
      cases fmt.element.decode f.payload <;> simp [hlarge]

theorem Outcome.ofRead_error {e : ReplayError} (hne : e ≠ .panics) :
    Outcome.ofRead (([] : List R), some e) = .returns ([], some e) :=
  if_neg fun heq => hne (Option.some.inj heq)

theorem Outcome.ofRead_cons (record : R) (later : List R × Option ReplayError) :
    (Outcome.ofRead later).bind (fun result => .returns (record :: result.1, result.2)) =
      .ofRead (record :: later.1, later.2) := by
  rw [Outcome.ofRead, Outcome.ofRead]
  by_cases hpanics : later.2 = some .panics
  · rw [if_pos hpanics, if_pos hpanics]
    rfl
  · rw [if_neg hpanics, if_neg hpanics]
    rfl

theorem replayLoop_header_append {header : List UInt8} (hheader : header.length = 8) (rest : List UInt8)
    (rounds : ℕ) :
    replayLoop fmt body (rounds + 1) (header ++ rest) =
      if frameCapacity < (uint32 (header.drop 4)).toNat then .panics
      else if rest.length < (uint32 (header.drop 4)).toNat then .returns ([], some .readData)
      else
        match elementOf fmt ⟨uint32 (header.take 4), rest.take (uint32 (header.drop 4)).toNat⟩ with
        | .error e => .returns ([], some e)
        | .ok el =>
          (Outcome.ofOption (body el)).bind fun result =>
            match result with
            | .error e => .returns ([], some e)
            | .ok none => replayLoop fmt body rounds (rest.drop (uint32 (header.drop 4)).toNat)
            | .ok (some record) =>
              (replayLoop fmt body rounds (rest.drop (uint32 (header.drop 4)).toNat)).bind fun later =>
                .returns (record :: later.1, later.2) := by
  rw [replayLoop, readFull_header hheader]
  dsimp only
  generalize (uint32 (header.drop 4)).toNat = size
  by_cases hlarge : frameCapacity < size
  · rw [if_pos hlarge, if_pos hlarge]
  · rw [if_neg hlarge, if_neg hlarge]
    by_cases htorn : rest.length < size
    · rw [if_pos htorn, readFull_of_lt htorn]
      by_cases hnil : rest = [] <;> simp only [hnil, if_true, if_false]
    · have hle := Nat.not_lt.mp htorn
      rw [if_neg htorn, readFull_of_le hle, elementOf, List.length_take_of_le hle, if_neg hlarge]
      dsimp only
      by_cases hsum : fmt.checksum (rest.take size) ≠ uint32 (header.take 4)
      · rw [if_pos hsum, if_pos hsum]
      · rw [if_neg hsum, if_neg hsum]
        cases fmt.element.decode (rest.take size) <;> rfl

section

variable (hbody : ∀ el, body el = some (accept el)) (haccept : ∀ el, accept el ≠ .error .panics)
include hbody haccept

/-- The loop of a replay does what the reader of elements does, and it needs no more rounds than there are
bytes. -/
theorem replayLoop_eq (rounds : ℕ) (bytes : List UInt8) (hrounds : bytes.length < rounds) :
    replayLoop fmt body rounds bytes = .ofRead ((elementReader fmt accept).read bytes) := by
  induction rounds generalizing bytes with
  | zero => exact absurd hrounds (Nat.not_lt_zero _)
  | succ rounds ih =>
    by_cases hempty : bytes = []
    · subst hempty
      rfl
    · by_cases hshort : bytes.length < 8
      · rw [FrameReader.read, scan, FrameLayout.scan_short hempty hshort, replayLoop,
          readFull_of_lt hshort, if_neg hempty]
        rfl
      · obtain ⟨header, rest, rfl, hheader⟩ := exists_header (Nat.not_lt.mp hshort)
        rw [List.length_append, hheader] at hrounds
        have hlater (size : ℕ) := ih (rest.drop size) (by rw [List.length_drop]; omega)
        rw [FrameReader.read_header_append _ hheader, replayLoop_header_append hheader]
        generalize (uint32 (header.drop 4)).toNat = size
        by_cases htorn : rest.length < size
        · rw [if_pos htorn, if_pos htorn]
          by_cases hlarge : frameCapacity < size <;> simp [hlarge, elementReader, replayEnd, Outcome.ofRead]
        · rw [if_neg htorn, if_neg htorn]
          have hframe : (elementReader fmt accept).accept ⟨uint32 (header.take 4), rest.take size⟩ =
              (elementOf fmt ⟨uint32 (header.take 4), rest.take size⟩).bind accept := rfl
          rw [hframe]
          by_cases hlarge : frameCapacity < size
          · have hlength : (rest.take size).length = size := List.length_take_of_le (Nat.not_lt.mp htorn)
            rw [elementOf, hlength]
            simp [hlarge, Outcome.ofRead, Except.bind]
          · rw [if_neg hlarge]
            have hfits := (elementOf_panics_iff fmt ⟨uint32 (header.take 4), rest.take size⟩).not
            cases helement : elementOf fmt ⟨uint32 (header.take 4), rest.take size⟩ with
            | error e =>
              have hne : e ≠ .panics := by
                rintro rfl
                exact (hfits.mpr (by dsimp only; rw [List.length_take]; omega)) helement
              exact (Outcome.ofRead_error hne).symm
            | ok el =>
              dsimp only [Except.bind]
              rw [hbody]
              dsimp only [Outcome.ofOption, Outcome.bind]
              cases hel : accept el with
              | error e =>
                have hne : e ≠ .panics := fun heq => haccept el (by rw [hel, heq])
                exact (Outcome.ofRead_error hne).symm
              | ok record =>
                cases record with
                | none => exact hlater size
                | some record =>
                  dsimp only
                  rw [hlater]
                  exact Outcome.ofRead_cons record _

theorem replaySegments_eq (files : List (List UInt8)) :
    replaySegments fmt body files = .ofRead ((elementReader fmt accept).readAll files) := by
  induction files with
  | nil => rfl
  | cons bytes rest ih =>
    rw [replaySegments, replayLoop_eq hbody haccept _ _ (Nat.lt_succ_self _), FrameReader.readAll]
    cases hread : (elementReader fmt accept).read bytes with
    | mk records found =>
      cases found with
      | some e =>
        by_cases he : e = .panics <;> simp [Outcome.ofRead, Outcome.bind, he]
      | none =>
        simp only [Outcome.ofRead, Outcome.bind, ih]
        by_cases hlater : ((elementReader fmt accept).readAll rest).2 = some .panics <;> simp [hlater]

/-- A replay returns exactly when every header that it reaches announces a payload that fits the buffer. -/
theorem replaySegments_returns_iff (files : List (List UInt8)) :
    (∃ result, replaySegments fmt body files = .returns result) ↔
      ∀ size ∈ (elementReader fmt accept).reached files, size ≤ frameCapacity := by
  have hframe (f : RawFrame) : (elementReader fmt accept).accept f = .error .panics ↔ frameCapacity < f.payload.length := by
    rw [← elementOf_panics_iff fmt f, elementReader]
    dsimp only
    cases elementOf fmt f with
    | error e => simp [Except.bind]
    | ok el => simp [Except.bind, haccept el]
  have hend (ending : Ending) : (elementReader fmt accept).atEnd ending = some .panics ↔
      ∃ size, ending = .tornPayload size ∧ frameCapacity < size := by
    cases ending with
    | clean | tornHeader => simp [elementReader, replayEnd]
    | tornPayload size => by_cases hlarge : frameCapacity < size <;> simp [elementReader, replayEnd, hlarge]
  rw [replaySegments_eq hbody haccept, ← FrameReader.readAll_ne_iff hframe hend, Outcome.ofRead]
  split
  · next hpanics => simp [hpanics]
  · next hreturns => exact iff_of_true ⟨_, rfl⟩ hreturns

end

/-- The loop of the search for the last position finds it, on all bytes. -/
theorem lastIndexLoop_eq (rounds : ℕ) (last : UInt64) (bytes : List UInt8) (hrounds : bytes.length < rounds) :
    lastIndexLoop fmt rounds last bytes = .returns (lastPosition fmt last (scan bytes).1) := by
  induction rounds generalizing last bytes with
  | zero => exact absurd hrounds (Nat.not_lt_zero _)
  | succ rounds ih =>
    by_cases hempty : bytes = []
    · subst hempty
      rfl
    · by_cases hshort : bytes.length < 8
      · rw [scan, FrameLayout.scan_short hempty hshort, lastIndexLoop, readFull_of_lt hshort, if_neg hempty]
        rfl
      · obtain ⟨header, rest, rfl, hheader⟩ := exists_header (Nat.not_lt.mp hshort)
        rw [scan_header_append hheader, lastIndexLoop, readFull_header hheader]
        dsimp only
        generalize (uint32 (header.drop 4)).toNat = size
        by_cases htorn : rest.length < size
        · rw [if_pos htorn, readFull_of_lt htorn]
          by_cases hnil : rest = [] <;> simp only [hnil, if_true, if_false, lastPosition]
        · rw [if_neg htorn, readFull_of_le (Nat.not_lt.mp htorn), lastPosition]
          dsimp only
          by_cases hsum : fmt.checksum (rest.take size) ≠ uint32 (header.take 4)
          · rw [if_pos hsum, if_pos hsum]
          · rw [if_neg hsum, if_neg hsum]
            cases fmt.element.decode (rest.take size) with
            | none => rfl
            | some el =>
              simp only [positionBody_eq, Outcome.ofOption, Outcome.bind]
              refine ih _ _ ?_
              rw [List.length_append, hheader] at hrounds
              rw [List.length_drop]
              omega

end Loops

theorem itemIn_ne_panics (el : Element) : itemIn fmt el ≠ .error .panics := by
  have hcommand (bytes : List UInt8) (build : C → Option (ReplayItem C)) :
      (commandIn fmt bytes).map build ≠ .error .panics := by
    unfold commandIn
    split <;> simp [Except.map]
  unfold itemIn
  split
  · simp
  · split
    · split
      · simp
      · split
        · simp
        · split
          · simp
          · exact hcommand _ _
    · exact hcommand _ _

theorem commandOf_ne_panics (el : Element) : commandOf fmt el ≠ .error .panics := by
  have hcommand (bytes : List UInt8) : (commandIn fmt bytes).map some ≠ .error .panics := by
    unfold commandIn
    split <;> simp [Except.map]
  unfold commandOf
  split
  · split
    · simp
    · split
      · simp
      · split
        · simp
        · exact hcommand _
  · exact hcommand _

/-- The replay of items, with every access checked. -/
def replayItemsLoop (directory : List (ℕ × List UInt8)) : Outcome (List (ReplayItem C) × Option ReplayError) :=
  replaySegments fmt (itemBody fmt) ((sortFiles id directory).map Prod.snd)

/-- The replay of commands, with every access checked. -/
def replayCommandLoop (directory : List (ℕ × List UInt8)) : Outcome (List C × Option ReplayError) :=
  replaySegments fmt (commandBody fmt) ((sortFiles id directory).map Prod.snd)

/-- The search for the last position in a segment, with every access checked. -/
def lastIndexOfSegmentLoop (segment : List UInt8) : Outcome UInt64 := lastIndexLoop fmt (segment.length + 1) 0 segment

/-- On every directory the replays and the searches for the last position return, with records, an error or a
position, exactly when every header that a replay reaches announces a payload that fits its buffer. -/
theorem readers_return_iff (directory : List (ℕ × List UInt8)) :
    ((∃ result, replayItemsLoop fmt directory = .returns result) ∧
      (∃ result, replayCommandLoop fmt directory = .returns result) ∧
      ∀ segment ∈ directory, ∃ last, lastIndexOfSegmentLoop fmt segment.2 = .returns last) ↔
    (∀ size ∈ (itemReader fmt).reached ((sortFiles id directory).map Prod.snd), size ≤ frameCapacity) ∧
      ∀ size ∈ (commandReader fmt).reached ((sortFiles id directory).map Prod.snd), size ≤ frameCapacity := by
  have hlast : ∀ segment ∈ directory, ∃ last, lastIndexOfSegmentLoop fmt segment.2 = .returns last :=
    fun segment _ => ⟨_, lastIndexLoop_eq _ 0 segment.2 (Nat.lt_succ_self _)⟩
  rw [and_iff_left hlast]
  exact and_congr (replaySegments_returns_iff (itemBody_eq fmt) (itemIn_ne_panics fmt) _)
    (replaySegments_returns_iff (commandBody_eq fmt) (commandOf_ne_panics fmt) _)

/-- A segment of one header that announces one byte more than the buffer holds makes both replays panic. -/
theorem readers_panic :
    replayItemsLoop tallyFormat [(0, [0, 0, 0, 0, 1, 40, 0, 0])] = .panics ∧
      replayCommandLoop tallyFormat [(0, [0, 0, 0, 0, 1, 40, 0, 0])] = .panics ∧
      lastIndexOfSegmentLoop tallyFormat [0, 0, 0, 0, 1, 40, 0, 0] = .returns 0 := by
  decide +kernel

end SevenDB.Wal
