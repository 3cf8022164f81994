import SevenDB.Common.BufferedFile
import SevenDB.Common.ByteCodec
import SevenDB.Common.ByteFrames
import SevenDB.Common.GuardedRun
import Mathlib.Logic.Function.Basic

/-!
# The file log of the buckets

Every bucket has a file, whose path is made of its id and cleaned. Ids with slashes and dots in them may so come to
one file, with two writers and two counts of commit indices; the log is modelled for ids with files of their own, and
without errors of opening, seeking and scanning a file. An entry is put into a frame, with the length first and the checksum
of its JSON after it, and gets the next commit index of the bucket. A bucket is opened when it is used for
the first time: its file is scanned up to the first damage for the last commit index, and appends go to the
end of the file. An append is flushed and synced before the commit index counts as used. A read goes
through the file from its front and also stops at the first damage.
-/

namespace SevenDB.Bucket

open SevenDB.Common

inductive WALRecordType
  | dataUpdate
  | subscribe
  | unsubscribe
  | outboxWrite
  | outboxAck
  | epochCreate
  | notifierLease
  deriving DecidableEq, Repr

/-- A bucket, and how often it was created anew. -/
structure EpochID (B : Type*) where
  bucket : B
  counter : ℕ
  deriving DecidableEq, Repr

structure WALEntry (B : Type*) where
  fileOffset : ℕ
  timestamp : ℤ
  bucketID : B
  epoch : EpochID B
  commitIndex : ℕ
  type : WALRecordType
  payload : List UInt8
  deriving DecidableEq, Repr

/-- The JSON of entries and the checksum. No bytes at all are no JSON. -/
structure BucketFormat (B : Type*) where
  json : ByteCodec (WALEntry B)
  checksum : List UInt8 → UInt32
  decode_nil : json.decode [] = none

/-- The file of a bucket with its writer, and the last assigned commit index once the bucket is open. -/
structure BucketState where
  file : BufferedFile
  commitIdx : Option ℕ
  deriving DecidableEq, Repr

def bufferSize : ℕ := 128 * 1024

/-- A bucket that is not open, with the bytes of its file. -/
def BucketState.onDisk (bytes : List UInt8) : BucketState := ⟨.openAt bufferSize bytes, none⟩

/-- What the operating system lets fail in an append: a write takes no more bytes than its limit, and the
sync fails. -/
structure AppendFaults where
  header : Option ℕ
  payload : Option ℕ
  flush : Option ℕ
  fsync : Bool
  deriving DecidableEq, Repr

def AppendFaults.none : AppendFaults := ⟨Option.none, Option.none, Option.none, false⟩

inductive AppendError
  | nilEntry
  | entryTooLarge (size : ℕ)
  | writeHeader
  | writePayload
  | flush
  | fsync
  deriving DecidableEq, Repr

section Reading

variable {B : Type*} (fmt : BucketFormat B)

/-- The checksum of a frame is the one of its payload. -/
def BucketFormat.matches (f : RawFrame) : Bool := decide (fmt.checksum f.payload = f.sum)

def BucketFormat.entryIn (f : RawFrame) : Option (WALEntry B) := fmt.json.decode f.payload

/-- The frames of a file up to the first whose checksum does not match. -/
def validFrames (bytes : List UInt8) : List RawFrame := (sizeFirst.scan bytes).1.takeWhile fmt.matches

/-- The entries that a reader comes to. It skips payloads that are no entries. -/
def readable (bytes : List UInt8) : List (WALEntry B) := (validFrames fmt bytes).filterMap fmt.entryIn

/-- The entries that a read returns from a commit index on. -/
def read (bytes : List UInt8) (fromCommitIndex : ℕ) : List (WALEntry B) :=
  (readable fmt bytes).filter fun e => fromCommitIndex ≤ e.commitIndex

/-- The highest commit index that the scan of a file finds. Unlike a read it stops at an empty payload. -/
def lastCommitIndex (bytes : List UInt8) : ℕ :=
  (((sizeFirst.scan bytes).1.takeWhile fun f => f.payload ≠ [] && fmt.matches f).filterMap fmt.entryIn).foldl
    (fun last e => if last < e.commitIndex then e.commitIndex else last) 0

end Reading

namespace BucketState

variable {B : Type*} (fmt : BucketFormat B) (s : BucketState)

/-- Open a bucket that is not open yet, with a new writer at the end of the file. -/
def openBucket : BucketState :=
  match s.commitIdx with
  | some _ => s
  | none => ⟨{ s.file with buf := [], failed := false }, some (lastCommitIndex fmt s.file.file)⟩

variable (entry : WALEntry B) (now : ℤ)

/-- The entry that an append puts into the file. Nothing counts epochs. -/
def stamp : WALEntry B :=
  { entry with
    commitIndex := s.commitIdx.getD 0 + 1
    timestamp := now
    epoch := ⟨entry.bucketID, 0⟩
    fileOffset := s.file.file.length }

/-- The JSON of the entry that an append puts into the file. -/
def stampedJSON : List UInt8 := fmt.json.encode (s.stamp entry now)

/-- The frame of the entry that an append puts into the file. -/
def stampedFrame : List UInt8 := sizeFirst.frame fmt.checksum (s.stampedJSON fmt entry now)

def append (faults : AppendFaults) : BucketState × Except AppendError (WALEntry B) :=
  let payload := s.stampedJSON fmt entry now
  if 2 ^ 31 - 1 < payload.length then (s, .error (.entryTooLarge payload.length))
  else
    let header := sizeFirst.header (fmt.checksum payload) (UInt32.ofNat payload.length)
    let afterHeader := s.file.write faults.header header
    if afterHeader.failed then ({ s with file := afterHeader }, .error .writeHeader)
    else
      let afterPayload := afterHeader.write faults.payload payload
      if afterPayload.failed then ({ s with file := afterPayload }, .error .writePayload)
      else
        let flushed := afterPayload.flush faults.flush
        if flushed.failed then ({ s with file := flushed }, .error .flush)
        else if faults.fsync then ({ s with file := flushed }, .error .fsync)
        else (⟨flushed.fsync, some (s.stamp entry now).commitIndex⟩, .ok (s.stamp entry now))

/-- What an append to an open bucket comes to: it refuses the entry, the writer has failed before, it fails
before the frame is in the file, the sync fails, or the frame is in the file and synced. -/
inductive Appends (faults : AppendFaults) : BucketState × Except AppendError (WALEntry B) → Prop
  | refused (size : ℕ) (hsize : 2 ^ 31 - 1 < size) : Appends faults (s, .error (.entryTooLarge size))
  | stuck (hfailed : s.file.failed = true) : Appends faults (s, .error .writeHeader)
  | torn (sent : List UInt8) (error : AppendError) (hhealthy : s.file.failed = false)
      (hsize : (s.stampedJSON fmt entry now).length < 2 ^ 31)
      (hsent : sent <+: s.stampedFrame fmt entry now) (hne : sent ≠ s.stampedFrame fmt entry now)
      (hfaults : faults ≠ .none) :
      Appends faults ({ s with file := { s.file with file := s.file.file ++ sent, failed := true } }, .error error)
  | unsynced (hfsync : faults.fsync = true) :
      Appends faults ({ s with file := { s.file with file := s.file.file ++ s.stampedFrame fmt entry now } },
        .error .fsync)
  | synced (hhealthy : s.file.failed = false) (hsize : (s.stampedJSON fmt entry now).length < 2 ^ 31) :
      Appends faults (⟨BufferedFile.fsync { s.file with file := s.file.file ++ s.stampedFrame fmt entry now },
        some (s.stamp entry now).commitIndex⟩, .ok (s.stamp entry now))

variable {s}

theorem Appends.of_lost (hbuf : s.file.buf = []) (hhealthy : s.file.failed = false) {g : BufferedFile}
    {faults : AppendFaults} (hsize : (s.stampedJSON fmt entry now).length < 2 ^ 31)
    (hfaults : faults ≠ .none) (error : AppendError)
    (h : BufferedFile.Lost s.file g (s.stampedFrame fmt entry now)) :
    s.Appends fmt entry now faults ({ s with file := g }, .error error) := by
  obtain ⟨sent, hsent, hne, rfl⟩ := h
  have hfile : { s.file with file := s.file.file ++ sent, buf := [], failed := true } =
      { s.file with file := s.file.file ++ sent, failed := true } := by
    rw [← hbuf]
  rw [hfile]
  exact .torn sent error hhealthy hsize hsent hne hfaults

theorem append_spec (hbuf : s.file.buf = []) (faults : AppendFaults) :
    s.Appends fmt entry now faults (s.append fmt entry now faults) := by
  unfold append
  dsimp only
  by_cases hlarge : 2 ^ 31 - 1 < (s.stampedJSON fmt entry now).length
  · rw [if_pos hlarge]
    exact .refused _ hlarge
  · have hsize : (s.stampedJSON fmt entry now).length < 2 ^ 31 := by omega
    rw [if_neg hlarge]
    generalize hheader : sizeFirst.header (fmt.checksum (s.stampedJSON fmt entry now))
      (UInt32.ofNat (s.stampedJSON fmt entry now).length) = header
    have hframe : header ++ s.stampedJSON fmt entry now = s.stampedFrame fmt entry now := by
      rw [stampedFrame, FrameLayout.frame, hheader]
    by_cases hfailed : s.file.failed = true
    · have hstuck : s.file.write faults.header header = s.file := if_pos hfailed
      rw [hstuck, if_pos hfailed]
      exact .stuck hfailed
    · have hhealthy : s.file.failed = false := eq_false_of_ne_true hfailed
      have hstart : BufferedFile.Took s.file s.file [] := .refl hhealthy hbuf
      rcases hstart.write faults.header header with htook | ⟨hlimit, hlost⟩
      · rw [if_neg (Bool.eq_false_iff.mp htook.failed_eq)]
        rw [List.nil_append] at htook
        have hwritten := htook.write faults.payload (s.stampedJSON fmt entry now)
        rw [hframe] at hwritten
        rcases hwritten with hall | ⟨hlimit, hlost⟩
        · rw [if_neg (Bool.eq_false_iff.mp hall.failed_eq)]
          rcases hall.flush faults.flush with hflushed | ⟨hlimit, hlost⟩
          · have hfile : { s.file with
                file := s.file.file ++ s.stampedFrame fmt entry now, buf := [], failed := false } =
                { s.file with file := s.file.file ++ s.stampedFrame fmt entry now } := by
              rw [← hbuf, ← hhealthy]
            rw [hflushed, hfile, if_neg hfailed]
            by_cases hfsync : faults.fsync = true
            · rw [if_pos hfsync]
              exact .unsynced hfsync
            · rw [if_neg hfsync]
              exact .synced hhealthy hsize
          · have hfaults : faults ≠ .none := fun hnone => hlimit (congrArg AppendFaults.flush hnone)
            rw [if_pos hlost.failed_eq]
            exact .of_lost fmt entry now hbuf hhealthy hsize hfaults _ hlost
        · have hfaults : faults ≠ .none := fun hnone => hlimit (congrArg AppendFaults.payload hnone)
          rw [if_pos hlost.failed_eq]
          exact .of_lost fmt entry now hbuf hhealthy hsize hfaults _ hlost
      · have hfaults : faults ≠ .none := fun hnone => hlimit (congrArg AppendFaults.header hnone)
        rw [if_pos hlost.failed_eq]
        rw [List.nil_append] at hlost
        have hless := hlost.append (s.stampedJSON fmt entry now)
        rw [hframe] at hless
        exact .of_lost fmt entry now hbuf hhealthy hsize hfaults _ hless

end BucketState

section TallyFormat

def timeNumber : ℤ → ℕ
  | .ofNat n => 2 * n
  | .negSucc n => 2 * n + 1

def numberTime (n : ℕ) : ℤ := if n % 2 = 0 then .ofNat (n / 2) else .negSucc (n / 2)

def recordTypes : List WALRecordType :=
  [.dataUpdate, .subscribe, .unsubscribe, .outboxWrite, .outboxAck, .epochCreate, .notifierLease]

/-- An entry of one of two buckets as numbers. -/
def entryNumbers (e : WALEntry Bool) : List ℕ :=
  e.fileOffset :: timeNumber e.timestamp :: e.bucketID.toNat :: e.epoch.bucket.toNat :: e.epoch.counter ::
    e.commitIndex :: recordTypes.idxOf e.type :: e.payload.map UInt8.toNat

def numbersEntry : List ℕ → Option (WALEntry Bool)
  | offset :: time :: bucket :: epochBucket :: counter :: index :: type :: payload =>
    (recordTypes[type]?).map fun type =>
      ⟨offset, numberTime time, decide (bucket = 1), ⟨decide (epochBucket = 1), counter⟩, index, type,
        payload.map UInt8.ofNat⟩
  | _ => none

theorem numbersEntry_entryNumbers (e : WALEntry Bool) : numbersEntry (entryNumbers e) = some e := by
  obtain ⟨offset, time, bucket, ⟨epochBucket, counter⟩, index, type, payload⟩ := e
  have htime : numberTime (timeNumber time) = time := by
    cases time with
    | ofNat n =>
      rw [timeNumber, numberTime, if_pos (by omega), Nat.mul_div_cancel_left n (by decide)]
    | negSucc n =>
      rw [timeNumber, numberTime, if_neg (by omega)]
      congr 1
      omega
  have hbucket (b : Bool) : decide (b.toNat = 1) = b := by cases b <;> rfl
  have htype : recordTypes[recordTypes.idxOf type]? = some type := by cases type <;> rfl
  have hpayload : (payload.map UInt8.toNat).map UInt8.ofNat = payload := by
    rw [List.map_map]
    exact List.map_id'' (fun byte => UInt8.ofNat_toNat) payload
  rw [entryNumbers, numbersEntry, htype, htime, hbucket, hbucket, hpayload]
  rfl

/-- Entries of two buckets as tallied numbers, with the sum of the bytes as the checksum. -/
def tallyFormat : BucketFormat Bool where
  json :=
    { encode := fun e => putTallies (entryNumbers e)
      decode := fun bytes => (takeTallies bytes).bind fun taken =>
        if taken.2 = [] then numbersEntry taken.1 else none
      decode_encode := fun e => by
        have htaken := takeTallies_putTallies (entryNumbers e) []
        rw [List.append_nil] at htaken
        rw [htaken, Option.bind_some, if_pos rfl, numbersEntry_entryNumbers] }
  checksum bytes := UInt32.ofNat (bytes.map UInt8.toNat).sum
  decode_nil := rfl

end TallyFormat

/-- The cleaned paths of the files of buckets. No two ids come to one path. -/
structure BucketPaths (B : Type*) where
  path : B → List UInt8
  distinct : Function.Injective path

/-- The file log: what is on disk and in memory for every path. -/
structure FileBucketLog {B : Type*} (paths : BucketPaths B) where
  atPath : List UInt8 → BucketState

/-- What happens to a log. Reads change nothing but which buckets are open. A log that is closed is opened
anew. A crash leaves every file with the bytes that were synced and some others after them. -/
inductive BucketAction (B : Type*)
  | append (entry : Option (WALEntry B)) (now : ℤ) (faults : AppendFaults)
  | read (bucket : B)
  | reopen
  | crash (tails : List UInt8 → List UInt8)

namespace FileBucketLog

variable {B : Type*} {paths : BucketPaths B} (fmt : BucketFormat B) (log : FileBucketLog paths)

/-- A log over an empty directory. -/
def new : FileBucketLog paths := ⟨fun _ => .onDisk []⟩

/-- The file of a bucket with its writer and its commit index. -/
def bucket (b : B) : BucketState := log.atPath (paths.path b)

def set (b : B) (s : BucketState) : FileBucketLog paths := ⟨Function.update log.atPath (paths.path b) s⟩

@[simp] theorem bucket_set_self (b : B) (s : BucketState) : (log.set b s).bucket b = s := Function.update_self ..

/-- What holds of the changed bucket and of all others holds of every bucket, since the others have other paths. -/
theorem forall_bucket_set {b : B} {s : BucketState} {P : B → BucketState → Prop} (hs : P b s)
    (hothers : ∀ other ≠ b, P other (log.bucket other)) (other : B) : P other ((log.set b s).bucket other) := by
  by_cases hother : other = b
  · rw [hother, bucket_set_self]
    exact hs
  · have hpath : paths.path other ≠ paths.path b := fun heq => hother (paths.distinct heq)
    have hsame : (log.set b s).bucket other = log.bucket other := Function.update_of_ne hpath ..
    rw [hsame]
    exact hothers other hother

def append (entry : Option (WALEntry B)) (now : ℤ) (faults : AppendFaults) :
    FileBucketLog paths × Except AppendError (WALEntry B) :=
  match entry with
  | none => (log, .error .nilEntry)
  | some entry =>
    let done := ((log.bucket entry.bucketID).openBucket fmt).append fmt entry now faults
    (log.set entry.bucketID done.1, done.2)

/-- Close the log, which flushes every writer, and open the directory anew. -/
def reopen : FileBucketLog paths := ⟨fun path => ⟨(log.atPath path).file.flush none, none⟩⟩

def crash (tails : List UInt8 → List UInt8) : FileBucketLog paths :=
  ⟨fun path => .onDisk ((log.atPath path).file.durable ++ tails path)⟩

def step : BucketAction B → Option (FileBucketLog paths)
  | .append entry now faults => some (log.append fmt entry now faults).1
  | .read b => some (log.set b ((log.bucket b).openBucket fmt))
  | .reopen => some log.reopen
  | .crash tails => some (log.crash tails)

/-- The entry that a step acknowledges: the one of an append that has succeeded. -/
def acknowledged : BucketAction B → List (WALEntry B)
  | .append entry now faults =>
    match (log.append fmt entry now faults).2 with
    | .ok stamped => [stamped]
    | .error _ => []
  | _ => []

/-- The entries of a bucket that a read returns from a commit index on. -/
def read (b : B) (fromCommitIndex : ℕ) : List (WALEntry B) :=
  Bucket.read fmt (log.bucket b).file.file fromCommitIndex

/-- The entries of a bucket that reads can return. -/
def entries (b : B) : List (WALEntry B) := readable fmt (log.bucket b).file.file

end FileBucketLog

/-- An entry of one of two buckets as a caller hands it over. -/
def plainEntry (b : Bool) (payload : List UInt8) : WALEntry Bool := ⟨0, 0, b, ⟨b, 0⟩, 0, .dataUpdate, payload⟩

/-- The files of two buckets, with paths of one letter. -/
def twoPaths : BucketPaths Bool := ⟨fun b => if b then [116] else [102], fun a b => by cases a <;> cases b <;> decide⟩

def oneEntryLog : FileBucketLog twoPaths :=
  (FileBucketLog.new.append tallyFormat (some (plainEntry true [5])) 1 .none).1

end SevenDB.Bucket
