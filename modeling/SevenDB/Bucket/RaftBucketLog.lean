import SevenDB.Bucket.FileBucketLog
import SevenDB.Raft.StreamDelivery

/-!
# The log of the buckets over raft

A read starts a reader of its own, which takes committed records from the stream of the shard, passes those of
its bucket from an index on to a channel of its own, and drops the others. There is one stream for all reads of
all buckets of the shard and for the applier of the emissions, and a record that one of them has taken is gone
for the others, as are the records that were taken before a read started. A reader sends to its channel without
looking at its context, so it stops only between two records.
-/

namespace SevenDB.Bucket

open SevenDB.Common SevenDB.Raft

/-- An entry as a read over raft passes it on; its type is any number. -/
structure RaftEntry where
  bucketID : String
  commitIndex : ℕ
  fileOffset : ℕ
  timestamp : ℤ
  epoch : EpochID String
  type : ℤ
  payload : List UInt8
  deriving DecidableEq, Repr

/-- The entry for a committed record. -/
def RaftEntry.ofCommitted (bucket : String) (time : ℤ) (cr : CommittedRecord) : RaftEntry where
  bucketID := bucket
  commitIndex := cr.commitIndex
  fileOffset := cr.raftIndex
  timestamp := time
  epoch := ⟨bucket, 0⟩
  type := cr.record.type
  payload := cr.record.payload

/-- The committed record that an entry was made from. -/
def RaftEntry.committed (e : RaftEntry) : CommittedRecord :=
  ⟨e.fileOffset, e.commitIndex, ⟨e.bucketID, e.type, e.payload⟩⟩

def readCapacity : ℕ := 64

/-- A read with its channel: the entry that the reader is sending, those in the channel, those that the caller has
taken, and whether the reader still runs. -/
structure Reader where
  bucket : String
  fromCommitIndex : ℕ
  sending : Option RaftEntry
  out : List RaftEntry
  delivered : List RaftEntry
  running : Bool
  deriving DecidableEq, Repr

namespace Reader

def start (bucket : String) (fromCommitIndex : ℕ) : Reader := ⟨bucket, fromCommitIndex, none, [], [], true⟩

/-- A read is to deliver a committed record: it is of the bucket and not below the index. -/
def wants (rd : Reader) (cr : CommittedRecord) : Bool :=
  decide (cr.record.bucketID = rd.bucket ∧ rd.fromCommitIndex ≤ cr.commitIndex)

/-- The reader has taken a record from the stream. -/
def taking (rd : Reader) (time : ℤ) (cr : CommittedRecord) : Reader :=
  if cr.record.bucketID ≠ rd.bucket then rd
  else if cr.commitIndex < rd.fromCommitIndex then rd
  else { rd with sending := some (.ofCommitted rd.bucket time cr) }

/-- The reader gets the entry that it sends into a channel that has room. -/
def push (rd : Reader) : Option Reader :=
  rd.sending.bind fun e =>
    if rd.out.length < readCapacity then some { rd with sending := none, out := rd.out ++ [e] } else none

/-- The caller takes an entry from the channel. -/
def next (rd : Reader) : Option Reader :=
  rd.out.head?.map fun e => { rd with out := rd.out.tail, delivered := rd.delivered ++ [e] }

/-- The reader stops, which closes its channel. -/
def stop (rd : Reader) : Option Reader :=
  if rd.running = true ∧ rd.sending = none then some { rd with running := false } else none

/-- All entries that the reader has made, in order. -/
def entries (rd : Reader) : List RaftEntry := rd.delivered ++ rd.out ++ rd.sending.toList

/-- A reader that sends nothing makes an entry of a record that its read is to deliver. -/
theorem committed_entries_taking (rd : Reader) (hsending : rd.sending = none) (time : ℤ) (cr : CommittedRecord) :
    (rd.taking time cr).entries.map RaftEntry.committed =
      rd.entries.map RaftEntry.committed ++ if rd.wants cr then [cr] else [] := by
  unfold taking wants
  by_cases hbucket : cr.record.bucketID = rd.bucket
  · by_cases hindex : cr.commitIndex < rd.fromCommitIndex
    · simp [hbucket, hindex]
    · have hentry : RaftEntry.committed (.ofCommitted rd.bucket time cr) = cr := by
        rw [RaftEntry.committed, RaftEntry.ofCommitted, ← hbucket]
      simp [hbucket, hindex, entries, hsending, hentry, Nat.le_of_not_lt hindex]
  · simp [hbucket]

/-- Taking a record changes neither the bucket nor the index of a read. -/
theorem wants_taking (rd : Reader) (time : ℤ) (cr : CommittedRecord) : (rd.taking time cr).wants = rd.wants := by
  unfold taking
  split
  · rfl
  · split <;> rfl

variable {rd after : Reader}

theorem entries_push (h : rd.push = some after) : after.entries = rd.entries ∧ after.wants = rd.wants := by
  obtain ⟨e, he, hbranch⟩ := Option.bind_eq_some_iff.mp h
  obtain ⟨_, rfl⟩ := Option.ite_some_none_eq_some.mp hbranch
  exact ⟨by simp [entries, he], rfl⟩

theorem entries_next (h : rd.next = some after) : after.entries = rd.entries ∧ after.wants = rd.wants := by
  obtain ⟨e, he, rfl⟩ := Option.map_eq_some_iff.mp h
  refine ⟨?_, rfl⟩
  rw [entries, entries, List.eq_cons_of_mem_head? he]
  simp

theorem entries_stop (h : rd.stop = some after) : after.entries = rd.entries ∧ after.wants = rd.wants := by
  obtain ⟨_, rfl⟩ := Option.ite_some_none_eq_some.mp h
  exact ⟨rfl, rfl⟩

end Reader

/-- Who takes records from the stream of a shard. -/
inductive Consumer (R : Type)
  | applier
  | reader (r : R)
  deriving DecidableEq, Repr

/-- The stream of a shard, who has taken which record, and the reads. -/
structure SharedStream (C R : Type) where
  stream : CommittedStream C
  takes : List (Consumer R × CommittedRecord)
  readers : R → Option Reader

/-- What happens to the stream besides that a record is taken; the applier takes a record; a read starts; its
reader takes a record or gets its entry into the channel; the caller takes an entry; the reader stops. -/
inductive SharedAction (C R : Type)
  | stream (a : StreamAction C)
  | apply
  | read (r : R) (bucket : String) (fromCommitIndex : ℕ)
  | take (r : R) (time : ℤ)
  | push (r : R)
  | next (r : R)
  | stop (r : R)

variable {C R : Type}

/-- The stream of a node that starts, without any reads. -/
def SharedStream.init (node : ShardRaftNode C) : SharedStream C R := ⟨.init node, [], fun _ => none⟩

section Step

variable (log : List IndexedEntry)

/-- A consumer takes the next record. -/
def SharedStream.takeFor (s : SharedStream C R) (consumer : Consumer R) : Option (CommittedRecord × SharedStream C R) :=
  s.stream.committedCh.buffer.head?.bind fun cr =>
    (s.stream.step log .receive).map fun stream =>
      (cr, { s with stream := stream, takes := s.takes ++ [(consumer, cr)] })

variable [DecidableEq R]

def SharedStream.setReader (s : SharedStream C R) (r : R) (rd : Reader) : SharedStream C R :=
  { s with readers := Function.update s.readers r (some rd) }

def SharedStream.stepReader (s : SharedStream C R) (r : R) (change : Reader → Option Reader) :
    Option (SharedStream C R) :=
  (s.readers r).bind fun rd => (change rd).map (s.setReader r)

/-- A record is taken from the stream, which only consumers do. -/
def isReceive : StreamAction C → Bool
  | .receive => true
  | .ready _ | .apply | .send | .expire | .register _ _ | .snapshot _ | .close | .closeChannel => false

def SharedStream.step (s : SharedStream C R) : SharedAction C R → Option (SharedStream C R)
  | .stream a =>
    if isReceive a then none else (s.stream.step log a).map fun stream => { s with stream := stream }
  | .apply => (s.takeFor log .applier).map Prod.snd
  | .read r bucket fromCommitIndex =>
    match s.readers r with
    | none => some (s.setReader r (.start bucket fromCommitIndex))
    | some _ => none
  | .take r time =>
    (s.readers r).bind fun rd =>
      if rd.running = true ∧ rd.sending = none then
        (s.takeFor log (.reader r)).map fun taken => taken.2.setReader r (rd.taking time taken.1)
      else none
  | .push r => s.stepReader r Reader.push
  | .next r => s.stepReader r Reader.next
  | .stop r => s.stepReader r Reader.stop

end Step

section Accounts

variable [DecidableEq R] {takes : List (Consumer R × CommittedRecord)} {r : R}

/-- What is known of a read: its reader has made an entry of each record that it has taken and that the read is to
deliver; before the read starts it has taken none. -/
def Accounts (takes : List (Consumer R × CommittedRecord)) (r : R) : Option Reader → Prop
  | none => takenBy takes (.reader r) = []
  | some rd => rd.entries.map RaftEntry.committed = (takenBy takes (.reader r)).filter rd.wants

/-- A record that another consumer takes does not concern a read. -/
theorem Accounts.of_other {slot : Option Reader} (h : Accounts takes r slot) {consumer : Consumer R}
    (hother : consumer ≠ .reader r) (cr : CommittedRecord) : Accounts (takes ++ [(consumer, cr)]) r slot := by
  have hsame : takenBy (takes ++ [(consumer, cr)]) (.reader r) = takenBy takes (.reader r) := by
    rw [takenBy_append, if_neg hother, List.append_nil]
  cases slot with
  | none => rwa [Accounts, hsame]
  | some rd => rwa [Accounts, hsame]

/-- A reader makes an entry of a record that it takes and that its read is to deliver. -/
theorem Accounts.taking {rd : Reader} (h : Accounts takes r (some rd)) (hsending : rd.sending = none) (time : ℤ)
    (cr : CommittedRecord) : Accounts (takes ++ [(.reader r, cr)]) r (some (rd.taking time cr)) := by
  have hbefore : rd.entries.map RaftEntry.committed = (takenBy takes (.reader r)).filter rd.wants := h
  rw [Accounts, rd.committed_entries_taking hsending, rd.wants_taking, takenBy_append, if_pos rfl, List.filter_append,
    hbefore]
  simp [List.filter_cons]

end Accounts

/-- What holds of a shared stream at any time: the stream is in order, the records that were received are those
that some consumer has taken, and all reads are accounted for. -/
structure SharedStream.Shared [DecidableEq R] (log : List IndexedEntry) (s : SharedStream C R) : Prop where
  streams : s.stream.Streams log
  taken : s.takes.map Prod.snd = s.stream.committedCh.received
  accounts : ∀ r, Accounts s.takes r (s.readers r)

section Preserved

variable {log : List IndexedEntry}

theorem received_step {stream after : CommittedStream C} {a : StreamAction C} (hstep : stream.step log a = some after)
    (ha : isReceive a = false) : after.committedCh.received = stream.committedCh.received := by
  cases CommittedStream.move_of_step hstep with
  | apply hpending hidle he =>
    rw [CommittedStream.applyEntry]
    dsimp only
    split <;> rfl
  | send hsend =>
    obtain ⟨x, _, _, rfl⟩ := Channel.send_eq_some hsend
    rfl
  | expire hexpire =>
    obtain ⟨x, _, rfl⟩ := Option.map_eq_some_iff.mp hexpire
    rfl
  | receive hreceive => cases ha
  | aside hchannel hposition hstopped => rw [hchannel]

theorem SharedStream.takeFor_eq_some {s after : SharedStream C R} {consumer : Consumer R} {cr : CommittedRecord}
    (h : s.takeFor log consumer = some (cr, after)) :
    s.stream.step log .receive = some after.stream ∧ after.takes = s.takes ++ [(consumer, cr)] ∧
      after.readers = s.readers ∧
      after.stream.committedCh.received = s.stream.committedCh.received ++ [cr] := by
  obtain ⟨head, hhead, hrest⟩ := Option.bind_eq_some_iff.mp h
  obtain ⟨stream, hstream, hpair⟩ := Option.map_eq_some_iff.mp hrest
  cases hpair
  refine ⟨hstream, rfl, rfl, ?_⟩
  rw [CommittedStream.step, Channel.receive, hhead] at hstream
  cases hstream
  rfl

variable [DecidableEq R] {s after : SharedStream C R}

theorem SharedStream.Shared.init (log : List IndexedEntry) (node : ShardRaftNode C) :
    (SharedStream.init node : SharedStream C R).Shared log :=
  ⟨.init log node, rfl, fun _ => rfl⟩

/-- A consumer takes a record: the stream stays in order, and the record is among those taken. -/
theorem SharedStream.Shared.takeFor (h : s.Shared log)
    (hlog : log.Pairwise fun first second => first.index < second.index) {consumer : Consumer R}
    {cr : CommittedRecord} (htake : s.takeFor log consumer = some (cr, after)) :
    after.stream.Streams log ∧ after.takes.map Prod.snd = after.stream.committedCh.received ∧
      after.takes = s.takes ++ [(consumer, cr)] ∧ after.readers = s.readers := by
  obtain ⟨hstream, htakes, hreaders, hreceived⟩ := SharedStream.takeFor_eq_some htake
  refine ⟨h.streams.step hlog hstream, ?_, htakes, hreaders⟩
  rw [htakes, List.map_append, h.taken, hreceived]
  rfl

theorem SharedStream.Shared.stepReader (h : s.Shared log) {r : R} {change : Reader → Option Reader}
    (hchange : ∀ rd next, change rd = some next → next.entries = rd.entries ∧ next.wants = rd.wants)
    (hstep : s.stepReader r change = some after) : after.Shared log := by
  obtain ⟨rd, hr, hmap⟩ := Option.bind_eq_some_iff.mp hstep
  obtain ⟨next, hnext, rfl⟩ := Option.map_eq_some_iff.mp hmap
  obtain ⟨hentries, hwants⟩ := hchange rd next hnext
  have hself := h.accounts r
  rw [hr, Accounts, ← hentries, ← hwants] at hself
  exact ⟨h.streams, h.taken,
    (Function.forall_update_iff s.readers (Accounts s.takes)).mpr ⟨hself, fun other _ => h.accounts other⟩⟩

theorem SharedStream.Shared.read (h : s.Shared log) {r : R} {bucket : String} {fromCommitIndex : ℕ}
    (hstep : s.step log (.read r bucket fromCommitIndex) = some after) : after.Shared log := by
  have hnone := h.accounts r
  rw [SharedStream.step] at hstep
  cases hr : s.readers r with
  | none =>
    rw [hr] at hstep hnone
    cases hstep
    refine ⟨h.streams, h.taken,
      (Function.forall_update_iff s.readers (Accounts s.takes)).mpr ⟨?_, fun other _ => h.accounts other⟩⟩
    change [] = (takenBy s.takes (.reader r)).filter _
    rw [show takenBy s.takes (.reader r) = [] from hnone, List.filter_nil]
  | some rd =>
    rw [hr] at hstep
    cases hstep

section

variable (h : s.Shared log) (hlog : log.Pairwise fun first second => first.index < second.index)
include h hlog

theorem SharedStream.Shared.take {r : R} {time : ℤ}
    (hstep : s.step log (.take r time) = some after) : after.Shared log := by
  obtain ⟨rd, hr, hbranch⟩ := Option.bind_eq_some_iff.mp hstep
  obtain ⟨hready, hmap⟩ := Option.ite_none_right_eq_some.mp hbranch
  obtain ⟨⟨cr, next⟩, htake, rfl⟩ := Option.map_eq_some_iff.mp hmap
  obtain ⟨hstreams, htaken, htakes, hreaders⟩ := h.takeFor hlog htake
  have hself := h.accounts r
  rw [hr] at hself
  refine ⟨hstreams, htaken,
    (Function.forall_update_iff next.readers (Accounts next.takes)).mpr ⟨?_, fun other hother => ?_⟩⟩
  · rw [htakes]
    exact hself.taking hready.2 time cr
  · rw [htakes, hreaders]
    exact (h.accounts other).of_other (fun heq => hother (Consumer.reader.inj heq).symm) cr

theorem SharedStream.Shared.apply (hstep : s.step log .apply = some after) :
    after.Shared log := by
  obtain ⟨⟨cr, next⟩, htake, rfl⟩ := Option.map_eq_some_iff.mp hstep
  obtain ⟨hstreams, htaken, htakes, hreaders⟩ := h.takeFor hlog htake
  refine ⟨hstreams, htaken, fun r => ?_⟩
  change Accounts next.takes r (next.readers r)
  rw [htakes, hreaders]
  exact (h.accounts r).of_other (fun heq : Consumer.applier = .reader r => nomatch heq) cr

theorem SharedStream.Shared.step {action : SharedAction C R}
    (hstep : s.step log action = some after) : after.Shared log := by
  cases action with
  | stream a =>
    obtain ⟨ha, hmap⟩ := Option.ite_none_left_eq_some.mp hstep
    obtain ⟨stream, hstream, rfl⟩ := Option.map_eq_some_iff.mp hmap
    rw [Bool.not_eq_true] at ha
    exact ⟨h.streams.step hlog hstream, h.taken.trans (received_step hstream ha).symm, h.accounts⟩
  | apply => exact h.apply hlog hstep
  | read r bucket fromCommitIndex => exact h.read hstep
  | take r time => exact h.take hlog hstep
  | push r => exact h.stepReader (fun _ _ => Reader.entries_push) hstep
  | next r => exact h.stepReader (fun _ _ => Reader.entries_next) hstep
  | stop r => exact h.stepReader (fun _ _ => Reader.entries_stop) hstep

end

theorem SharedStream.Shared.run (hlog : log.Pairwise fun first second => first.index < second.index)
    {node : ShardRaftNode C} {actions : List (SharedAction C R)}
    (hrun : Run (SharedStream.step log) (fun _ _ => True) (.init node) actions s) : s.Shared log :=
  hrun.invariant (SharedStream.Shared log) (fun _ _ _ h _ hstep => h.step hlog hstep) (.init log node)

/-- A read whose reader has nothing left has delivered the records that it has taken and is to deliver. -/
theorem SharedStream.Shared.delivered_eq (h : s.Shared log) {r : R} {rd : Reader} (hr : s.readers r = some rd)
    (hsending : rd.sending = none) (hout : rd.out = []) :
    rd.delivered.map RaftEntry.committed = (takenBy s.takes (.reader r)).filter rd.wants := by
  have hself := h.accounts r
  rw [hr, Accounts, Reader.entries, hsending, hout, Option.toList_none, List.append_nil, List.append_nil] at hself
  exact hself

end Preserved

/-- Whatever the committed log and whoever shares the stream, a read delivers some of the records of its bucket from
its index on, in order, and once the stream and the read have nothing left it has delivered them all exactly when
the send of none of them timed out and nobody else took one. -/
theorem read_delivers_iff [DecidableEq R] (log : List IndexedEntry) (node : ShardRaftNode C)
    (actions : List (SharedAction C R)) (s : SharedStream C R) (r : R) (rd : Reader)
    (hlog : log.Pairwise fun first second => first.index < second.index)
    (hrun : Run (SharedStream.step log) (fun _ _ => True) (.init node) actions s) (hr : s.readers r = some rd)
    (hidle : s.stream.Idle) (hempty : s.stream.committedCh.buffer = []) (hsending : rd.sending = none)
    (hout : rd.out = []) :
    s.stream.committedCh.offers.map CommittedRecord.delivery = bucketRecords (log.take s.stream.position) ∧
      (rd.delivered.map RaftEntry.committed).Sublist (s.stream.committedCh.offers.filter rd.wants) ∧
      (rd.delivered.map RaftEntry.committed = s.stream.committedCh.offers.filter rd.wants ↔
        (∀ cr ∈ s.stream.committedCh.dropped, rd.wants cr = false) ∧
          ∀ take ∈ s.takes, rd.wants take.2 = true → take.1 = .reader r) := by
  have h := SharedStream.Shared.run hlog hrun
  have hdistinct := h.streams.indices_nodup hlog
  have htaken : s.takes.map Prod.snd = s.stream.committedCh.kept CommittedRecord.raftIndex :=
    h.taken.trans (h.streams.accounted.received_eq hidle hempty)
  -- the records delivered are some of those taken, and these are some of those offered
  have hsome : ((takenBy s.takes (.reader r)).filter rd.wants).Sublist ((s.takes.map Prod.snd).filter rd.wants) :=
    (List.filter_sublist.map Prod.snd).filter rd.wants
  have hkept : ((s.takes.map Prod.snd).filter rd.wants).Sublist (s.stream.committedCh.offers.filter rd.wants) := by
    rw [htaken]
    exact List.filter_sublist.filter rd.wants
  rw [h.delivered_eq hr hsending hout, ← h.streams.accounted.filter_kept_eq_iff hdistinct, ← htaken,
    ← filter_takenBy_eq_iff]
  refine ⟨h.streams.offers_eq, hsome.trans hkept, fun hall => ?_, fun hboth => hboth.2.trans hboth.1⟩
  rw [← hall] at hkept
  have hsame := hsome.antisymm hkept
  exact ⟨hsame.symm.trans hall, hsame⟩

/-- The only read of a shard without an applier delivers both records of its bucket. -/
theorem read_delivers_iff_alone :
    ∃ (s : SharedStream ℕ Unit) (rd : Reader), s.readers () = some rd ∧
      rd.delivered.map RaftEntry.committed =
        [⟨2, 1, ⟨"b", 1001, [7]⟩⟩, ⟨5, 2, ⟨"b", 1001, [8]⟩⟩] := by
  let actions : List (SharedAction ℕ Unit) := [.read () "b" 0, .stream (.ready 5), .stream .apply, .stream .apply,
    .stream .send, .take () 0, .stream .apply, .push (), .stream .apply, .stream .apply, .stream .send, .take () 0,
    .push (), .next (), .next ()]
  obtain ⟨s, hrun, htest⟩ := exists_run_of_check (SharedStream.step shortLog) (fun _ _ => True)
    (.init (newShardRaftNode ℕ 0 0 0)) actions
    (fun s : SharedStream ℕ Unit => (s.readers ()).any fun rd : Reader =>
      decide (s.stream.committedCh.offered = none ∧ s.stream.committedCh.buffer = [] ∧ rd.sending = none ∧
        rd.out = [] ∧ s.stream.committedCh.dropped = [] ∧ (∀ take ∈ s.takes, take.1 = .reader ()) ∧
        s.stream.committedCh.offers.filter rd.wants =
          [⟨2, 1, ⟨"b", 1001, [7]⟩⟩, ⟨5, 2, ⟨"b", 1001, [8]⟩⟩]))
    (by decide +kernel)
  obtain ⟨rd, hr, hstate⟩ := (Option.any_eq_true _ _).mp htest
  obtain ⟨hidle, hempty, hsending, hout, hdropped, hmine, hoffers⟩ := of_decide_eq_true hstate
  obtain ⟨_, _, hiff⟩ := read_delivers_iff shortLog (newShardRaftNode ℕ 0 0 0) actions s () rd (by decide +kernel)
    hrun hr hidle hempty hsending hout
  refine ⟨s, rd, hr, (hiff.mpr ⟨fun cr hcr => ?_, fun take htake _ => hmine take htake⟩).trans hoffers⟩
  rw [hdropped] at hcr
  cases hcr

/-- Of two reads of a bucket one gets the first record, the applier takes the second, and the other read gets
nothing, although no send timed out. -/
theorem read_misses :
    ∃ (actions : List (SharedAction ℕ Bool)) (s : SharedStream ℕ Bool) (first second : Reader),
      Run (SharedStream.step shortLog) (fun _ _ => True) (.init (newShardRaftNode ℕ 0 0 0)) actions s ∧
      s.stream.position = shortLog.length ∧ s.stream.Idle ∧ s.stream.committedCh.buffer = [] ∧
      s.stream.committedCh.dropped = [] ∧ s.readers true = some first ∧ s.readers false = some second ∧
      first.sending = none ∧ first.out = [] ∧ second.sending = none ∧ second.out = [] ∧
      s.stream.committedCh.offers.filter first.wants = [⟨2, 1, ⟨"b", 1001, [7]⟩⟩, ⟨5, 2, ⟨"b", 1001, [8]⟩⟩] ∧
      s.stream.committedCh.offers.filter second.wants = [⟨2, 1, ⟨"b", 1001, [7]⟩⟩, ⟨5, 2, ⟨"b", 1001, [8]⟩⟩] ∧
      first.delivered.map RaftEntry.committed = [⟨2, 1, ⟨"b", 1001, [7]⟩⟩] ∧ second.delivered = [] := by
  let actions : List (SharedAction ℕ Bool) := [.read true "b" 0, .read false "b" 0, .stream (.ready 5),
    .stream .apply, .stream .apply, .stream .send, .take true 0, .push true, .next true, .stream .apply,
    .stream .apply, .stream .apply, .stream .send, .apply]
  obtain ⟨s, hrun, htest⟩ := exists_run_of_check (SharedStream.step shortLog) (fun _ _ => True)
    (.init (newShardRaftNode ℕ 0 0 0)) actions
    (fun s : SharedStream ℕ Bool => decide (s.stream.position = shortLog.length ∧
        s.stream.committedCh.offered = none ∧ s.stream.committedCh.buffer = [] ∧ s.stream.committedCh.dropped = [] ∧
        s.readers true = some ⟨"b", 0, none, [], [⟨"b", 1, 2, 0, ⟨"b", 0⟩, 1001, [7]⟩], true⟩ ∧
        s.readers false = some (.start "b" 0) ∧
        s.stream.committedCh.offers = [⟨2, 1, ⟨"b", 1001, [7]⟩⟩, ⟨5, 2, ⟨"b", 1001, [8]⟩⟩]))
    (by decide +kernel)
  obtain ⟨hposition, hidle, hempty, hdropped, hfirst, hsecond, hoffers⟩ := of_decide_eq_true htest
  exact ⟨actions, s, _, _, hrun, hposition, hidle, hempty, hdropped, hfirst, hsecond, rfl, rfl, rfl, rfl,
    by rw [hoffers]; rfl, by rw [hoffers]; rfl, rfl, rfl⟩

end SevenDB.Bucket
