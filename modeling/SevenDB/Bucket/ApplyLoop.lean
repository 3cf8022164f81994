import SevenDB.Bucket.FileBucketLog
import SevenDB.Common.GrowingStream

/-!
# The apply loop of a bucket

The loop of a bucket reads the log from the entry after the last one that it has applied. A read starts a
goroutine that goes through the file from its front, skips the entries before, and sends the others into a
channel; the loop applies what it receives. At the end of the file the channel is closed, and the loop reads
again. Meanwhile entries are appended, one at a time under the lock of the log, and the bytes of an append
come into sight of the readers little by little.
-/

namespace SevenDB.Bucket

open SevenDB.Common

/-- One read of the loop: where it has to start, the number of bytes that its reader has fetched, those of them
that are not taken apart yet, the channel, and whether the channel is closed. -/
structure Pass (B : Type*) where
  fromCommitIndex : ℕ
  offset : ℕ
  fetched : List UInt8
  channel : List (WALEntry B)
  closed : Bool
  deriving DecidableEq, Repr

/-- A bucket with its loop: the commit index of the last entry that was applied, the entries that were applied,
and the read that is going on. -/
structure Runtime (B : Type*) where
  id : B
  lastApplied : ℕ
  applied : List (WALEntry B)
  pass : Option (Pass B)
  deriving DecidableEq, Repr

/-- An append that holds the lock: the entry and the time, and how many bytes of its frame can be seen. -/
structure InFlight (B : Type*) where
  entry : WALEntry B
  now : ℤ
  shown : ℕ
  deriving DecidableEq, Repr

/-- A log, the append that is going on, the entries of the appends that have returned for every bucket, and the
loops that read the log. -/
structure ApplyState {B : Type*} (paths : BucketPaths B) (R : Type*) where
  log : FileBucketLog paths
  inFlight : Option (InFlight B)
  completed : B → List (WALEntry B)
  runtime : R → Runtime B

/-- What happens to a log and its readers. -/
inductive ApplyAction (B R : Type*)
  | beginAppend (entry : WALEntry B) (now : ℤ)
  | reveal (count : ℕ)
  | endAppend
  | reopen
  | newBucket (r : R) (b : B)
  | startRead (r : R)
  | fetch (r : R) (count : ℕ)
  | takeFrame (r : R)
  | atEnd (r : R)
  | cancel (r : R)
  | receive (r : R)
  | finish (r : R)
  deriving DecidableEq, Repr

def channelSize : ℕ := 64

namespace Pass

variable {B : Type*} (fmt : BucketFormat B) (p : Pass B)

def start (fromCommitIndex : ℕ) : Pass B := ⟨fromCommitIndex, 0, [], [], false⟩

/-- Fetch some of the bytes that can be seen. -/
def fetch (visible : List UInt8) (count : ℕ) : Pass B :=
  let bytes := (visible.drop p.offset).take count
  { p with offset := p.offset + bytes.length, fetched := p.fetched ++ bytes }

/-- Take a frame off the fetched bytes. A checksum that does not match ends the read; a payload that is no entry
is skipped. An entry to be sent has to wait for room in the channel. -/
def takeFrame : Option (Pass B) :=
  match sizeFirst.next p.fetched with
  | none => none
  | some (f, rest) =>
    if fmt.matches f = false then some { p with fetched := rest, closed := true }
    else
      match fmt.entryIn f with
      | none => some { p with fetched := rest }
      | some e =>
        if e.commitIndex < p.fromCommitIndex then some { p with fetched := rest }
        else if p.channel.length < channelSize then some { p with fetched := rest, channel := p.channel ++ [e] }
        else none

/-- The end of the file is reached before the next frame is complete. -/
def atEnd (visible : List UInt8) : Option (Pass B) :=
  if sizeFirst.next p.fetched = none ∧ visible.length ≤ p.offset then some { p with closed := true } else none

end Pass

namespace Runtime

variable {B : Type*} (rt : Runtime B)

/-- A bucket that has applied nothing. -/
def new (b : B) : Runtime B := ⟨b, 0, [], none⟩

/-- Change the read whose channel is open. -/
def onOpen (change : Pass B → Option (Pass B)) : Option (Runtime B) :=
  rt.pass.bind fun p => if p.closed then none else (change p).map fun q => { rt with pass := some q }

/-- Start a read after the last entry that was applied. -/
def startRead : Option (Runtime B) :=
  if rt.pass = none then some { rt with pass := some (.start (rt.lastApplied + 1)) } else none

/-- Apply the first entry of the channel. -/
def receive : Option (Runtime B) :=
  rt.pass.bind fun p =>
    match p.channel with
    | [] => none
    | e :: rest =>
      some { rt with
        lastApplied := e.commitIndex
        applied := rt.applied ++ [e]
        pass := some { p with channel := rest } }

/-- The read ends when its channel is closed and empty. -/
def finish : Option (Runtime B) :=
  rt.pass.bind fun p => if p.closed ∧ p.channel = [] then some { rt with pass := none } else none

variable {rt} {next : Runtime B}

theorem onOpen_eq_some_iff {change : Pass B → Option (Pass B)} :
    rt.onOpen change = some next ↔ ∃ p q, rt.pass = some p ∧ p.closed = false ∧ change p = some q ∧
      next = { rt with pass := some q } := by
  constructor
  · intro h
    obtain ⟨p, hp, hopen⟩ := Option.bind_eq_some_iff.mp h
    obtain ⟨hclosed, hopen⟩ := Option.ite_none_left_eq_some.mp hopen
    obtain ⟨q, hq, rfl⟩ := Option.map_eq_some_iff.mp hopen
    exact ⟨p, q, hp, eq_false_of_ne_true hclosed, hq, rfl⟩
  · rintro ⟨p, q, hp, hclosed, hq, rfl⟩
    rw [onOpen, hp, Option.bind_some, if_neg (Bool.eq_false_iff.mp hclosed), hq]
    rfl

theorem startRead_eq_some (h : rt.startRead = some next) :
    rt.pass = none ∧ next = { rt with pass := some (.start (rt.lastApplied + 1)) } := by
  obtain ⟨hpass, hnext⟩ := Option.ite_none_right_eq_some.mp h
  exact ⟨hpass, (Option.some.inj hnext).symm⟩

theorem receive_eq_some_iff :
    rt.receive = some next ↔ ∃ p e rest, rt.pass = some p ∧ p.channel = e :: rest ∧
      next = { rt with
        lastApplied := e.commitIndex
        applied := rt.applied ++ [e]
        pass := some { p with channel := rest } } := by
  constructor
  · intro h
    obtain ⟨p, hp, hreceive⟩ := Option.bind_eq_some_iff.mp h
    cases hchannel : p.channel with
    | nil =>
      rw [hchannel] at hreceive
      cases hreceive
    | cons e rest =>
      rw [hchannel] at hreceive
      exact ⟨p, e, rest, hp, hchannel, (Option.some.inj hreceive).symm⟩
  · rintro ⟨p, e, rest, hp, hchannel, rfl⟩
    rw [receive, hp, Option.bind_some, hchannel]

theorem finish_eq_some_iff :
    rt.finish = some next ↔ ∃ p, rt.pass = some p ∧ p.closed = true ∧ p.channel = [] ∧
      next = { rt with pass := none } := by
  constructor
  · intro h
    obtain ⟨p, hp, hfinish⟩ := Option.bind_eq_some_iff.mp h
    obtain ⟨⟨hclosed, hempty⟩, hnext⟩ := Option.ite_none_right_eq_some.mp hfinish
    exact ⟨p, hp, hclosed, hempty, (Option.some.inj hnext).symm⟩
  · rintro ⟨p, hp, hclosed, hempty, rfl⟩
    rw [finish, hp, Option.bind_some, if_pos ⟨hclosed, hempty⟩]

end Runtime

namespace ApplyState

section SetRuntime

variable {B R : Type*} {paths : BucketPaths B} [DecidableEq R] (w : ApplyState paths R)

def setRuntime (r : R) (rt : Runtime B) : ApplyState paths R := { w with runtime := Function.update w.runtime r rt }

@[simp] theorem runtime_setRuntime_self (r : R) (rt : Runtime B) : (w.setRuntime r rt).runtime r = rt :=
  Function.update_self ..

theorem runtime_setRuntime_of_ne {r other : R} (h : other ≠ r) (rt : Runtime B) :
    (w.setRuntime r rt).runtime other = w.runtime other := Function.update_of_ne h ..

end SetRuntime

variable {B R : Type*} {paths : BucketPaths B} [DecidableEq B] [DecidableEq R] (fmt : BucketFormat B)
  (w : ApplyState paths R)

/-- An empty directory and buckets that have applied nothing. -/
def new (ids : R → B) : ApplyState paths R := ⟨.new, none, fun _ => [], fun r => .new (ids r)⟩

/-- The bucket of an append as it is when the append has opened it. -/
def opened (f : InFlight B) : BucketState := (w.log.bucket f.entry.bucketID).openBucket fmt

/-- The entry of the append to a bucket that is going on. -/
def pending (b : B) : List (WALEntry B) :=
  match w.inFlight with
  | none => []
  | some f => if f.entry.bucketID = b then [(w.opened fmt f).stamp f.entry f.now] else []

/-- The bytes of the append to a bucket that is going on, as far as they can be seen. -/
def shown (b : B) : List UInt8 :=
  match w.inFlight with
  | none => []
  | some f => if f.entry.bucketID = b then ((w.opened fmt f).stampedFrame fmt f.entry f.now).take f.shown else []

/-- The entries appended to a bucket, the one of the append that is going on among them. -/
def appended (b : B) : List (WALEntry B) := w.completed b ++ w.pending fmt b

/-- What can be seen of the file of a bucket. -/
def visible (b : B) : List UInt8 := (w.log.bucket b).file.file ++ w.shown fmt b

/-- One step. Appends, reads that start, and the log that is opened anew need the lock. -/
def step : ApplyAction B R → Option (ApplyState paths R)
  | .beginAppend entry now =>
    if w.inFlight = none ∧ (w.log.append fmt (some entry) now .none).2.isOk then
      some { w with inFlight := some ⟨entry, now, 0⟩ }
    else none
  | .reveal count => w.inFlight.map fun f => { w with inFlight := some { f with shown := f.shown + count } }
  | .endAppend =>
    w.inFlight.bind fun f =>
      if ((w.opened fmt f).stampedFrame fmt f.entry f.now).length ≤ f.shown then
        some { w with
          log := (w.log.append fmt (some f.entry) f.now .none).1
          inFlight := none
          completed := Function.update w.completed f.entry.bucketID
            (w.completed f.entry.bucketID ++ [(w.opened fmt f).stamp f.entry f.now]) }
      else none
  | .reopen => if w.inFlight = none then some { w with log := w.log.reopen } else none
  | .newBucket r b => some (w.setRuntime r (.new b))
  | .startRead r =>
    if w.inFlight = none then
      ((w.runtime r).startRead).map fun rt =>
        { w.setRuntime r rt with log := w.log.set rt.id ((w.log.bucket rt.id).openBucket fmt) }
    else none
  | .fetch r count =>
    ((w.runtime r).onOpen fun p => some (p.fetch (w.visible fmt (w.runtime r).id) count)).map (w.setRuntime r)
  | .takeFrame r => ((w.runtime r).onOpen fun p => p.takeFrame fmt).map (w.setRuntime r)
  | .atEnd r => ((w.runtime r).onOpen fun p => p.atEnd (w.visible fmt (w.runtime r).id)).map (w.setRuntime r)
  | .cancel r => ((w.runtime r).onOpen fun p => some { p with closed := true }).map (w.setRuntime r)
  | .receive r => (w.runtime r).receive.map (w.setRuntime r)
  | .finish r => (w.runtime r).finish.map (w.setRuntime r)

end ApplyState

end SevenDB.Bucket
