import SevenDB.Cmd.Results

/-!
# The commands on strings and numbers

A value that is set is classified by what it can be read as: an integer, a double, or else a string. SET and
GETEX share the options for an expiry time, given as a duration or as a point in time, in seconds or in
milliseconds.
-/

namespace SevenDB.Cmd

open SevenDB.Common SevenDB.Types SevenDB.Store

/-- The greatest duration, one year in seconds. -/
def maxEXDurationSec : Int64 := 31536000

/-- Classify a value and make an object of it. -/
def valueOf (value : GoString) : Value :=
  match parseInt value with
  | some n => .int n
  | none =>
    match parseFloat value with
    | some f => .float f
    | none => .str value

def createObjectFromValue (now : Int64) (value : GoString) (expiryMs : Int64) : Entry :=
  newObj now (valueOf value) expiryMs

/-- The text of an object; none for types that have no text. -/
def getWireValue : Value → Option GoString
  | .int n => some (intText n.toInt)
  | .str text => some text
  | .float f => some (floatText f)
  | .ssmap _ | .sortedSet _ => none

/-- The result for an object, or for a key without one. -/
def valueResult : Slot → Result
  | none => okResult (.value [])
  | some obj =>
    match getWireValue obj.value with
    | some text => okResult (.value text)
    | none => ⟨.err, "unknown object type", .empty⟩

/-- One option for the expiry time: its value less the time it counts from is a duration in some unit, which
must be positive and below a bound. Without the option the duration stays what it is. -/
def durationOption (command : String) (ps : Params) (p : Param) (base unit bound : Int64) (ms : Int64) :
    Except CmdError Int64 :=
  if ps.given p then
    match parseInt (ps p) with
    | none => .error (.invalidValue command p.text)
    | some v =>
      if v - base ≤ 0 ∨ bound ≤ v - base then .error (.invalidValue command p.text) else .ok ((v - base) * unit)
  else .ok ms

/-- The duration in milliseconds that the options ask for, or minus one. -/
def exDurationMs (command : String) (now : Int64) (ps : Params) : Except CmdError Int64 :=
  (durationOption command ps .ex 0 1000 maxEXDurationSec (-1)).bind fun ms =>
  (durationOption command ps .px 0 1 maxEXDurationSec ms).bind fun ms =>
  (durationOption command ps .exat (now / 1000) 1000 maxEXDurationSec ms).bind fun ms =>
  durationOption command ps .pxat now 1 (maxEXDurationSec * 1000) ms

def timeConflict (ps : Params) : Bool :=
  (ps.given .ex && ps.given .px) || (ps.given .ex && ps.given .exat) || (ps.given .ex && ps.given .pxat) ||
    (ps.given .px && ps.given .exat) || (ps.given .px && ps.given .pxat) || (ps.given .exat && ps.given .pxat)

def timeGiven (ps : Params) : Bool := ps.given .ex || ps.given .px || ps.given .exat || ps.given .pxat

/-- Options of SET that exclude each other are given. -/
def setConflict (ps : Params) : Bool :=
  timeConflict ps || (ps.given .xx && ps.given .nx) || (ps.given .keepttl && timeGiven ps)

/-- SET leaves the object alone: with XX when there is none, with NX when there is one. -/
def setSkips (ps : Params) (existing : Slot) : Bool :=
  (ps.given .xx && existing.isNone) || (ps.given .nx && existing.isSome)

def evalSET : Eval := fun now args slot =>
  match args with
  | _ :: value :: opts =>
    match parseParams opts with
    | none => (.panics, slot)
    | some (ps, nonParams) =>
      if nonParams ≠ [] ∨ setConflict ps then (.fails (.invalidSyntax "SET"), slot)
      else
        match exDurationMs "SET" now ps with
        | .error e => (.fails e, slot)
        | .ok ms =>
          let existing := slot.get now
          if setSkips ps existing then (.returns (okResult .empty), existing)
          else
            (.returns (okResult .empty),
              existing.put (ps.given .keepttl) (createObjectFromValue now value ms))
  | _ => (.fails (.wrongArgumentCount "SET"), slot)

/-- What SET leaves in a slot with options that are accepted. -/
def setSlotWith (now : Int64) (value : GoString) (ps : Params) (ms : Int64) (existing : Slot) : Slot :=
  if setSkips ps existing then existing else existing.put (ps.given .keepttl) (createObjectFromValue now value ms)

theorem evalSET_eq {now : Int64} {opts : List GoString} {ps : Params} {ms : Int64}
    (hparse : parseParams opts = some (ps, [])) (hconflict : setConflict ps = false)
    (hms : exDurationMs "SET" now ps = .ok ms) (key value : GoString) (slot : Slot) :
    evalSET now (key :: value :: opts) slot =
      (.returns (okResult .empty), setSlotWith now value ps ms (slot.get now)) := by
  simp only [evalSET, hparse, hconflict, hms, setSlotWith]
  cases setSkips ps (slot.get now) <;> simp

/-- SET succeeds only with a value and with options that are accepted. -/
theorem evalSET_succeeds {now : Int64} {args : List GoString} {slot : Slot}
    (h : (evalSET now args slot).1.succeeds = true) :
    ∃ key value opts ps ms, args = key :: value :: opts ∧ parseParams opts = some (ps, []) ∧
      setConflict ps = false ∧ exDurationMs "SET" now ps = .ok ms := by
  unfold evalSET at h
  split at h
  · next key value opts =>
    split at h
    · cases h
    · next ps nonParams hparse =>
      split at h
      · cases h
      · next haccepted =>
        rw [not_or, ne_eq, not_not, Bool.not_eq_true] at haccepted
        rw [haccepted.1] at hparse
        split at h
        · cases h
        · next ms hms => exact ⟨key, value, opts, ps, ms, rfl, hparse, haccepted.2, hms⟩
  · cases h

def evalGET : Eval := fun now args slot =>
  match args with
  | [_] => (.returns (valueResult (slot.get now)), slot.get now)
  | _ => (.fails (.wrongArgumentCount "GET"), slot)

def getexAccepts : Param → Bool
  | .ex | .px | .exat | .pxat | .persist => true
  | .ch | .incr | .gt | .lt | .xx | .nx | .keepttl | .durable | .sync => false

/-- GETEX key with options; other arguments are ignored. -/
def evalGETEX : Eval := fun now args slot =>
  match args with
  | [] => (.fails (.wrongArgumentCount "GETEX"), slot)
  | _ :: opts =>
    match readParams getexAccepts .none opts with
    | none => (.panics, slot)
    | some (ps, _) =>
      if timeConflict ps || (ps.given .persist && timeGiven ps) then (.fails (.invalidSyntax "GETEX"), slot)
      else
        match exDurationMs "GETEX" now ps with
        | .error e => (.fails e, slot)
        | .ok ms =>
          match slot.get now with
          | none => (.returns (valueResult none), none)
          | some obj =>
            (.returns (valueResult (some obj)),
              if ps.given .persist then some { obj with expiry := none }
              else if ms ≠ -1 then some { obj with expiry := some (now + ms) }
              else some obj)

/-- What GETEX leaves in a slot with options that are accepted. -/
def expirySlotWith (now : Int64) (ps : Params) (ms : Int64) : Slot → Slot
  | none => none
  | some obj =>
    if ps.given .persist then some { obj with expiry := none }
    else if ms ≠ -1 then some { obj with expiry := some (now + ms) }
    else some obj

theorem evalGETEX_eq {now : Int64} {opts rest : List GoString} {ps : Params} {ms : Int64}
    (hparse : readParams getexAccepts .none opts = some (ps, rest))
    (hconflict : (timeConflict ps || (ps.given .persist && timeGiven ps)) = false)
    (hms : exDurationMs "GETEX" now ps = .ok ms) (key : GoString) (slot : Slot) :
    evalGETEX now (key :: opts) slot =
      (.returns (valueResult (slot.get now)), expirySlotWith now ps ms (slot.get now)) := by
  simp only [evalGETEX, hparse, hconflict, hms]
  cases slot.get now <;> rfl

theorem evalGETEX_succeeds {now : Int64} {args : List GoString} {slot : Slot}
    (h : (evalGETEX now args slot).1.succeeds = true) :
    ∃ key opts ps rest ms, args = key :: opts ∧ readParams getexAccepts .none opts = some (ps, rest) ∧
      (timeConflict ps || (ps.given .persist && timeGiven ps)) = false ∧ exDurationMs "GETEX" now ps = .ok ms := by
  unfold evalGETEX at h
  split at h
  · cases h
  · next key opts =>
    split at h
    · cases h
    · next ps rest hparse =>
      split at h
      · cases h
      · next haccepted =>
        split at h
        · cases h
        · next ms hms => exact ⟨key, opts, ps, rest, ms, rfl, hparse, Bool.not_eq_true _ ▸ haccepted, hms⟩

def evalGETDEL : Eval := fun now args slot =>
  match args with
  | [_] => (.returns (valueResult (slot.get now)), none)
  | _ => (.fails (.wrongArgumentCount "GETDEL"), slot)

def evalGETSET : Eval := fun now args slot =>
  match args with
  | [_, value] =>
    (.returns (valueResult (slot.get now)), (slot.get now).put false (createObjectFromValue now value (-1)))
  | _ => (.fails (.wrongArgumentCount "GETSET"), slot)

/-- Add to the integer under a key, which keeps its expiry time; a missing one is made. -/
def doIncr (now : Int64) (delta : Int64) (slot : Slot) : Outcome × Slot :=
  match slot.get now with
  | none => (.returns (okResult (.number delta)), Slot.put none false (newObj now (.int delta) (-1)))
  | some ⟨.int old, expiry⟩ => (.returns (okResult (.number (old + delta))), some ⟨.int (old + delta), expiry⟩)
  | some obj => (.fails .wrongTypeOperation, some obj)

/-- A command that adds a fixed number. -/
def evalIncrFixed (command : String) (delta : Int64) : Eval := fun now args slot =>
  match args with
  | [_] => doIncr now delta slot
  | _ => (.fails (.wrongArgumentCount command), slot)

/-- A command that adds a number given as an argument, changed by a function. -/
def evalIncrArg (command : String) (change : Int64 → Int64) : Eval := fun now args slot =>
  match args with
  | [_, text] =>
    match parseInt text with
    | none => (.fails .integerOutOfRange, slot)
    | some delta => doIncr now (change delta) slot
  | _ => (.fails (.wrongArgumentCount command), slot)

def evalINCR : Eval := evalIncrFixed "INCR" 1

def evalDECR : Eval := evalIncrFixed "DECR" (-1)

def evalINCRBY : Eval := evalIncrArg "INCRBY" id

def evalDECRBY : Eval := evalIncrArg "DECRBY" fun delta => -delta

end SevenDB.Cmd
