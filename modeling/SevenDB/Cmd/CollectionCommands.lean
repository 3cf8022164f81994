import SevenDB.Cmd.Results
import SevenDB.Types.SortedSetLib

/-!
# The commands on hashes and sorted sets

HSET makes a new object for the hash, which loses its expiry time. ZADD on a missing key puts an empty
sorted set there first, and leaves it there when the options are refused afterwards.
-/

namespace SevenDB.Cmd

open SevenDB.Common SevenDB.Types SevenDB.Store

/-- Set fields to values and count the new ones. Fields and values alternate. -/
def setFields : Table GoString GoString → Int64 → List GoString → Table GoString GoString × Int64
  | m, count, field :: value :: rest =>
    setFields (m.insert field value) (if (m.lookup field).isNone then count + 1 else count) rest
  | m, count, _ => (m, count)

/-- HSET key field value and more fields and values. -/
def evalHSET : Eval := fun now args slot =>
  match args with
  | _ :: field :: value :: more =>
    match slot.get now with
    | some ⟨.ssmap m, expiry⟩ => setInto (some ⟨.ssmap m, expiry⟩) m now (field :: value :: more)
    | some obj => (.fails .wrongTypeOperation, some obj)
    | none => setInto none ∅ now (field :: value :: more)
  | _ => (.fails (.wrongArgumentCount "HSET"), slot)
where
  /-- Set the fields of a hash that was found. -/
  setInto (found : Slot) (m : Table GoString GoString) (now : Int64) (kvs : List GoString) : Outcome × Slot :=
    if kvs.length % 2 = 1 then (.fails (.wrongArgumentCount "HSET"), found)
    else
      (.returns (okResult (.number (setFields m 0 kvs).2)),
        found.put false (newObj now (.ssmap (setFields m 0 kvs).1) (-1)))

/-- Look up a field of a hash; more arguments than key and field are not looked at. -/
def evalHGET : Eval := fun now args slot =>
  match args with
  | _ :: field :: _ =>
    match slot.get now with
    | none => (.returns (okResult (.value [])), none)
    | some ⟨.ssmap m, expiry⟩ =>
      (.returns (okResult (.value ((m.lookup field).getD []))), some ⟨.ssmap m, expiry⟩)
    | some obj => (.fails .wrongTypeOperation, some obj)
  | _ => (.panics, slot)

/-- All fields of a hash; more arguments than the key are not looked at. -/
def evalHGETALL : Eval := fun now args slot =>
  match args with
  | _ :: _ =>
    match slot.get now with
    | none => (.returns (okResult (.fields ∅)), none)
    | some ⟨.ssmap m, expiry⟩ => (.returns (okResult (.fields m)), some ⟨.ssmap m, expiry⟩)
    | some obj => (.fails .wrongTypeOperation, some obj)
  | [] => (.panics, slot)

/-- Work on the sorted set under a key, or do without one. -/
def onSortedSet (now : Int64) (slot : Slot) (missing : Response) (present : SortedSet → Outcome × SortedSet) :
    Outcome × Slot :=
  match slot.get now with
  | none => (.returns (okResult missing), none)
  | some ⟨.sortedSet s, expiry⟩ => ((present s).1, some ⟨.sortedSet (present s).2, expiry⟩)
  | some obj => (.fails .wrongTypeOperation, some obj)

/-- Read scores and members, which alternate. -/
def readScores : List GoString → Option (List (Int64 × GoString))
  | score :: member :: rest =>
    (parseInt score).bind fun n => (readScores rest).map fun pairs => (n, member) :: pairs
  | _ => some []

/-- ZADD key with options, scores and members. -/
def evalZADD : Eval := fun now args slot =>
  match args with
  | _ :: first :: second :: more =>
    match parseParams (first :: second :: more) with
    | none => (.panics, slot)
    | some (ps, nonParams) =>
      if nonParams.length % 2 ≠ 0 then (.fails (.wrongArgumentCount "ZADD"), slot)
      else
        match readScores nonParams with
        | none => (.fails .invalidNumberFormat, slot)
        | some pairs =>
          match slot.get now with
          | none => addTo ps pairs ∅ none
          | some ⟨.sortedSet s, expiry⟩ => addTo ps pairs s expiry
          | some obj => (.fails .wrongTypeOperation, some obj)
  | _ => (.fails (.wrongArgumentCount "ZADD"), slot)
where
  /-- Add to a sorted set that is in the store by now. -/
  addTo (ps : Params) (pairs : List (Int64 × GoString)) (s : SortedSet) (expiry : Option Int64) : Outcome × Slot :=
    match SortedSet.tableLib.zadd s ps pairs with
    | .error e => (.fails (.zadd e), some ⟨.sortedSet s, expiry⟩)
    | .ok (after, count) => (.returns (okResult (.number count)), some ⟨.sortedSet after, expiry⟩)

/-- The most elements that a slice of pointers is made for. -/
def maxSliceCap : ℕ := 2 ^ 45

/-- A command that takes members out of a sorted set, one or as many as an argument says. -/
def evalPop (command : String) (pop : ℕ → SortedSet → List (Int64 × GoString) × SortedSet)
    (rank : ℕ → ℕ → ℕ) : Eval := fun now args slot =>
  match args with
  | [] => (.fails (.wrongArgumentCount command), slot)
  | [_] => take now slot 1
  | _ :: text :: _ =>
    match parseInt text with
    | none => (.fails .integerOutOfRange, slot)
    | some count => if count ≤ 0 then (.fails .integerOutOfRange, slot) else take now slot count.toNatClampNeg
where
  /-- Take members out. -/
  take (now : Int64) (slot : Slot) (count : ℕ) : Outcome × Slot :=
    onSortedSet now slot (.elements []) fun s =>
      if maxSliceCap < count then (.panics, s)
      else
        let popped := pop count s
        (.returns (okResult (.elements (popped.1.zipIdx.map fun node =>
          ⟨node.1.2, node.1.1, Int64.ofNat (rank (SortedSet.getCount s) node.2)⟩))), popped.2)

/-- ZPOPMAX key count: members from the last one on, with their ranks. -/
def evalZPOPMAX : Eval := evalPop "ZPOPMAX" SortedSet.popMax fun total i => total - i

/-- ZPOPMIN key count: members from the first one on, with their ranks. -/
def evalZPOPMIN : Eval := evalPop "ZPOPMIN" SortedSet.popMin fun _ i => i + 1

/-- Remove members and count those that were there. -/
def removeMembers : SortedSet → Int64 → List GoString → SortedSet × Int64
  | s, count, [] => (s, count)
  | s, count, member :: rest =>
    removeMembers (s.erase member) (if (s.lookup member).isSome then count + 1 else count) rest

def evalZREM : Eval := fun now args slot =>
  match args with
  | _ :: member :: more =>
    onSortedSet now slot (.number 0) fun s =>
      (.returns (okResult (.number (removeMembers s 0 (member :: more)).2)),
        (removeMembers s 0 (member :: more)).1)
  | _ => (.fails (.wrongArgumentCount "ZREM"), slot)

def evalZCARD : Eval := fun now args slot =>
  match args with
  | [_] =>
    onSortedSet now slot (.number 0) fun s =>
      (.returns (okResult (.number (Int64.ofNat (SortedSet.getCount s)))), s)
  | _ => (.fails (.wrongArgumentCount "ZCARD"), slot)

def scoreBound (text : GoString) : Option Int64 :=
  if text = ascii "-inf" then some Int64.minValue
  else if text = ascii "+inf" then some Int64.maxValue
  else parseInt text

def evalZCOUNT : Eval := fun now args slot =>
  match args with
  | [_, minArg, maxArg] =>
    match scoreBound minArg, scoreBound maxArg with
    | some minVal, some maxVal =>
      if maxVal < minVal then (.returns (okResult (.number 0)), slot)
      else
        onSortedSet now slot (.number 0) fun s =>
          (.returns (okResult (.number (SortedSet.zcount s minVal maxVal))), s)
    | _, _ => (.fails .invalidNumberFormat, slot)
  | _ => (.fails (.wrongArgumentCount "ZCOUNT"), slot)

/-- ZRANGE key start stop, by rank or by score. -/
def evalZRANGE : Eval := fun now args slot =>
  match args with
  | [_, start, stop] => range now slot start stop false
  | [_, start, stop, order] => range now slot start stop (equalFold order "BYSCORE")
  | _ => (.fails (.wrongArgumentCount "ZRANGE"), slot)
where
  /-- The members between two bounds. -/
  range (now : Int64) (slot : Slot) (start stop : GoString) (byScore : Bool) : Outcome × Slot :=
    match parseInt start, parseInt stop with
    | some first, some last =>
      onSortedSet now slot (.elements []) fun s =>
        (.returns (okResult (.elements (SortedSet.tableLib.zrange s first last byScore))), s)
    | _, _ => (.fails .invalidNumberFormat, slot)

/-- ZRANK key member; more arguments are not looked at. Without the argument the code indexes out of range, and a member
that is not in the set gets the score and the rank zero. -/
def evalZRANK : Eval := fun now args slot =>
  match args with
  | _ :: member :: _ =>
    onSortedSet now slot (.element none) fun s =>
      (.returns (okResult (.element (some
        (match s.lookup member with
        | none => ⟨member, 0, 0⟩
        | some score => ⟨member, score, Int64.ofNat (SortedSet.findRank s member)⟩)))), s)
  | _ => (.panics, slot)

end SevenDB.Cmd
