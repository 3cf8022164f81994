import SevenDB.Common.TimedChannel
import SevenDB.Emission.Group
import SevenDB.Raft.Node

/-!
# The stream of committed records

The ready loop takes one Ready after another and goes through its committed entries. A record with a
bucket is offered to the stream and given up when the send has waited too long, so the loop never
waits for its consumer. The consumer takes records at any speed. Closing the node lets the Ready under
way finish and then closes the stream, whose buffer can still be emptied. Callers register and
snapshots are taken meanwhile. Not modelled: a handler that fails fatally.
-/

namespace SevenDB.Raft

open SevenDB.Common

variable {C : Type}

/-- A committed entry with its raft index. -/
structure IndexedEntry where
  index : ℕ
  entry : CommittedEntry
  deriving DecidableEq, Repr

/-- A node with its stream, the number of committed entries it has gone through, the number that is
left of the Ready under way, and whether the stream is closed. -/
structure CommittedStream (C : Type) where
  node : ShardRaftNode C
  committedCh : Channel CommittedRecord
  position : ℕ
  pending : ℕ
  chClosed : Bool

/-- The stream of a node that starts. -/
def CommittedStream.init (node : ShardRaftNode C) : CommittedStream C :=
  ⟨node, .make Emission.committedCapacity, 0, 0, false⟩

/-- What the ready loop, the consumer, the callers and the closing of the node do. -/
inductive StreamAction (C : Type)
  | ready (count : ℕ)
  | apply
  | send
  | expire
  | receive
  | register (seq : UInt64) (caller : C)
  | snapshot (persisted : Bool)
  | close
  | closeChannel
  deriving DecidableEq, Repr

/-- The ready loop is between two entries. -/
def CommittedStream.Idle (s : CommittedStream C) : Prop := s.committedCh.offered = none

/-- The ready loop can be found between two entries. -/
instance (s : CommittedStream C) : Decidable s.Idle :=
  inferInstanceAs (Decidable (s.committedCh.offered = none))

/-- Go through one committed entry with a handler that does not fail. -/
def CommittedStream.applyEntry (s : CommittedStream C) (e : IndexedEntry) : CommittedStream C :=
  let result := s.node.processEntry e.index false e.entry
  { s with
    node := result.1
    committedCh :=
      match result.2.committed with
      | some cr => s.committedCh.offer cr
      | none => s.committedCh
    position := s.position + 1
    pending := s.pending - 1 }

/-- The next state, or nothing where the action is not possible. A Ready that comes after the node was
closed is discarded. -/
def CommittedStream.step (log : List IndexedEntry) (s : CommittedStream C) :
    StreamAction C → Option (CommittedStream C)
  | .ready count =>
    if s.node.closed = false ∧ s.pending = 0 ∧ s.Idle ∧ s.position + count ≤ log.length then
      some { s with pending := count }
    else none
  | .apply => if 0 < s.pending ∧ s.Idle then log[s.position]?.map s.applyEntry else none
  | .send => s.committedCh.send.map fun ch => { s with committedCh := ch }
  | .expire => s.committedCh.expire.map fun ch => { s with committedCh := ch }
  | .receive => s.committedCh.receive.map fun ch => { s with committedCh := ch }
  | .register seq caller =>
    if s.node.closed = false then
      some { s with node := { s.node with waitersSeq := s.node.waitersSeq.insert seq caller } }
    else none
  | .snapshot persisted =>
    if s.pending = 0 ∧ s.Idle then
      (s.node.takeSnapshot persisted).map fun taken => { s with node := taken.1 }
    else none
  | .close =>
    if s.node.closed = false then some { s with node := { s.node with closed := true, waitersSeq := ∅ } }
    else none
  | .closeChannel =>
    if s.node.closed = true ∧ s.pending = 0 ∧ s.Idle ∧ s.chClosed = false then some { s with chClosed := true }
    else none

/-- Once the stream is closed, the node is closed and nothing is left to send. -/
def CommittedStream.Stopped (s : CommittedStream C) : Prop :=
  s.chClosed = true → s.node.closed = true ∧ s.pending = 0 ∧ s.Idle

/-- What an action does to the stream: it offers the record of the next entry, if any, it is a step of
the channel, or it leaves the channel alone. -/
inductive CommittedStream.Move (log : List IndexedEntry) (s : CommittedStream C) :
    StreamAction C → CommittedStream C → Prop
  | apply {e : IndexedEntry} (hpending : 0 < s.pending) (hidle : s.Idle) (he : log[s.position]? = some e) :
      Move log s .apply (s.applyEntry e)
  | send {ch : Channel CommittedRecord} (hsend : s.committedCh.send = some ch) :
      Move log s .send { s with committedCh := ch }
  | expire {ch : Channel CommittedRecord} (hexpire : s.committedCh.expire = some ch) :
      Move log s .expire { s with committedCh := ch }
  | receive {ch : Channel CommittedRecord} (hreceive : s.committedCh.receive = some ch) :
      Move log s .receive { s with committedCh := ch }
  | aside {action : StreamAction C} {t : CommittedStream C} (hchannel : t.committedCh = s.committedCh)
      (hposition : t.position = s.position) (hstopped : s.Stopped → t.Stopped) : Move log s action t

theorem CommittedStream.move_of_step {log : List IndexedEntry} {s t : CommittedStream C}
    {action : StreamAction C} (hstep : s.step log action = some t) : Move log s action t := by
  cases action with
  | ready count =>
    obtain ⟨hready, rfl⟩ := Option.ite_some_none_eq_some.mp hstep
    refine .aside rfl rfl fun hstopped hclosed => ?_
    rw [(hstopped hclosed).1] at hready
    cases hready.1
  | apply =>
    obtain ⟨hready, hnext⟩ := Option.ite_none_right_eq_some.mp hstep
    obtain ⟨e, he, rfl⟩ := Option.map_eq_some_iff.mp hnext
    exact .apply hready.1 hready.2 he
  | send =>
    obtain ⟨ch, hsend, rfl⟩ := Option.map_eq_some_iff.mp hstep
    exact .send hsend
  | expire =>
    obtain ⟨ch, hexpire, rfl⟩ := Option.map_eq_some_iff.mp hstep
    exact .expire hexpire
  | receive =>
    obtain ⟨ch, hreceive, rfl⟩ := Option.map_eq_some_iff.mp hstep
    exact .receive hreceive
  | register seq caller =>
    obtain ⟨_, rfl⟩ := Option.ite_some_none_eq_some.mp hstep
    exact .aside rfl rfl id
  | snapshot persisted =>
    obtain ⟨_, hnext⟩ := Option.ite_none_right_eq_some.mp hstep
    obtain ⟨taken, htaken, rfl⟩ := Option.map_eq_some_iff.mp hnext
    obtain ⟨_, rfl⟩ := ShardRaftNode.takeSnapshot_eq_some htaken
    exact .aside rfl rfl id
  | close =>
    obtain ⟨_, rfl⟩ := Option.ite_some_none_eq_some.mp hstep
    exact .aside rfl rfl fun hstopped hclosed => ⟨rfl, (hstopped hclosed).2⟩
  | closeChannel =>
    obtain ⟨hready, rfl⟩ := Option.ite_some_none_eq_some.mp hstep
    exact .aside rfl rfl fun _ _ => ⟨hready.1, hready.2.1, hready.2.2.1⟩

/-- What a consumer is to get for a committed entry: its index and its record, when it has a bucket. -/
def IndexedEntry.delivery? (e : IndexedEntry) : Option (ℕ × RaftLogRecord) :=
  match e.entry with
  | .normal (.wire wr) => if wr.bucketID ≠ "" then some (e.index, wr.record) else none
  | .normal .empty | .normal .malformed | .confChange | .confChangeV2 | .other => none

/-- The index and the record of a committed record. -/
def CommittedRecord.delivery (cr : CommittedRecord) : ℕ × RaftLogRecord := (cr.raftIndex, cr.record)

/-- The committed records with a bucket, in the order of the log. -/
def bucketRecords (log : List IndexedEntry) : List (ℕ × RaftLogRecord) := log.filterMap IndexedEntry.delivery?

/-- Those of the committed records with a bucket whose send has not timed out. -/
def CommittedStream.delivered (log : List IndexedEntry) (s : CommittedStream C) : List (ℕ × RaftLogRecord) :=
  (bucketRecords (log.take s.position)).filter fun d =>
    decide (d.1 ∉ s.committedCh.dropped.map CommittedRecord.raftIndex)

/-- An entry is offered to the stream exactly when it is a record with a bucket. -/
theorem ShardRaftNode.committed_processEntry (node : ShardRaftNode C) (e : IndexedEntry) :
    (node.processEntry e.index false e.entry).2.committed.map CommittedRecord.delivery = e.delivery? := by
  rw [IndexedEntry.delivery?]
  match e.entry with
  | .normal .malformed | .normal .empty => rfl
  | .normal (.wire wr) =>
    rw [ShardRaftNode.processEntry, ShardRaftNode.processRecord]
    by_cases hbucket : wr.bucketID ≠ ""
    · simp only [if_pos hbucket]
      rfl
    · simp only [if_neg hbucket]
      rfl
  | .confChange | .confChangeV2 | .other => rfl

section Possible

variable {log : List IndexedEntry}

/-- A send times out only while the buffer is full. -/
def OnlyWhenFull (s : CommittedStream C) (action : StreamAction C) : Prop :=
  action = .expire → s.committedCh.capacity ≤ s.committedCh.buffer.length

/-- A stream after its consumer has taken everything in the buffer. -/
def CommittedStream.emptied (s : CommittedStream C) : CommittedStream C :=
  { s with committedCh :=
      { s.committedCh with buffer := [], received := s.committedCh.received ++ s.committedCh.buffer } }

namespace CommittedStream

theorem run_emptied (s : CommittedStream C) :
    Run (step log) OnlyWhenFull s (List.replicate s.committedCh.buffer.length .receive)
      s.emptied := by
  generalize hbuffer : s.committedCh.buffer = buffer
  induction buffer generalizing s with
  | nil =>
    have hsame : s.emptied = s := by
      unfold emptied
      rw [hbuffer, List.append_nil, ← hbuffer]
    rw [hsame]
    exact .nil s
  | cons cr rest ih =>
    let next : CommittedStream C := { s with committedCh :=
      { s.committedCh with buffer := rest, received := s.committedCh.received ++ [cr] } }
    have hstep : s.step log .receive = some next := by
      rw [step, Channel.receive, hbuffer]
      rfl
    have hsame : s.emptied = next.emptied := by
      change _ = { next with committedCh := { next.committedCh with
        buffer := [], received := s.committedCh.received ++ [cr] ++ rest } }
      unfold emptied
      rw [hbuffer, List.append_assoc]
      rfl
    rw [hsame]
    exact .cons (fun hexpire => (by cases hexpire)) hstep (ih next rfl)

theorem exists_offer {s : CommittedStream C} {e : IndexedEntry} {d : ℕ × RaftLogRecord}
    (hidle : s.Idle) (hpending : 0 < s.pending) (he : log[s.position]? = some e)
    (hd : e.delivery? = some d) :
    ∃ (node : ShardRaftNode C) (cr : CommittedRecord), node.closed = s.node.closed ∧ cr.delivery = d ∧
      s.step log .apply = some ⟨node, s.committedCh.offer cr, s.position + 1, s.pending - 1, s.chClosed⟩ := by
  have hcommitted := s.node.committed_processEntry e
  rw [hd] at hcommitted
  obtain ⟨cr, hcr, hdelivery⟩ := Option.map_eq_some_iff.mp hcommitted
  have hunchanged := s.node.processEntry_unchanged e.index false e.entry
  refine ⟨(s.node.processEntry e.index false e.entry).1, cr, hunchanged.2.2, hdelivery, ?_⟩
  rw [step, if_pos ⟨hpending, hidle⟩, he, Option.map_some]
  simp only [applyEntry, hcr]

/-- Without a consumer the ready loop goes through records for as long as there is room for them. -/
theorem exists_run_fill (log : List IndexedEntry) (count : ℕ) (s : CommittedStream C)
    (hidle : s.Idle) (hpending : count ≤ s.pending)
    (hroom : s.committedCh.buffer.length + count ≤ s.committedCh.capacity)
    (hrecords : ∀ n < count, ∃ e d, log[s.position + n]? = some e ∧ e.delivery? = some d) :
    ∃ actions t, Run (step log) OnlyWhenFull s actions t ∧ t.Idle ∧
      t.position = s.position + count ∧ t.pending = s.pending - count ∧
      t.committedCh.buffer.length = s.committedCh.buffer.length + count ∧
      t.committedCh.capacity = s.committedCh.capacity ∧ t.node.closed = s.node.closed ∧
      t.chClosed = s.chClosed := by
  induction count generalizing s with
  | zero => exact ⟨[], s, .nil s, hidle, rfl, rfl, rfl, rfl, rfl, rfl⟩
  | succ count ih =>
    obtain ⟨e, d, he, hd⟩ := hrecords 0 (by omega)
    obtain ⟨node, cr, hclosed, _, happly⟩ := exists_offer hidle (by omega) he hd
    let sent : CommittedStream C := ⟨node,
      { s.committedCh.offer cr with offered := none, buffer := s.committedCh.buffer ++ [cr] },
      s.position + 1, s.pending - 1, s.chClosed⟩
    have hsend : (⟨node, s.committedCh.offer cr, s.position + 1, s.pending - 1, s.chClosed⟩ :
        CommittedStream C).step log .send = some sent := by
      have hchannel : (s.committedCh.offer cr).send =
          some { s.committedCh.offer cr with offered := none, buffer := s.committedCh.buffer ++ [cr] } :=
        if_pos (show s.committedCh.buffer.length < s.committedCh.capacity by omega)
      rw [step, hchannel]
      rfl
    have hlength : sent.committedCh.buffer.length = s.committedCh.buffer.length + 1 := List.length_append
    obtain ⟨actions, t, hrun, hidle', hposition, hleft, hbuffer, hcapacity, hopen, hch⟩ :=
      ih sent rfl (show count ≤ s.pending - 1 by omega)
        (by rw [hlength]; exact (show _ ≤ s.committedCh.capacity by omega))
        (fun n hn => by
          have hnext := hrecords (n + 1) (by omega)
          rw [← Nat.add_assoc, Nat.add_right_comm] at hnext
          exact hnext)
    refine ⟨.apply :: .send :: actions, t,
      .cons (fun hexpire => by cases hexpire) happly (.cons (fun hexpire => by cases hexpire) hsend hrun),
      hidle', ?_, ?_, ?_, hcapacity, hopen.trans hclosed, hch⟩
    · rw [hposition]
      exact (show s.position + 1 + count = _ by omega)
    · rw [hleft]
      exact (show s.pending - 1 - count = _ by omega)
    · rw [hbuffer, hlength]
      omega

/-- The last record of the last Ready is lost when the stream is full and nobody takes a record. -/
theorem exists_run_drop {s : CommittedStream C} {e : IndexedEntry} {d : ℕ × RaftLogRecord}
    (hidle : s.Idle) (hpending : s.pending = 1) (hopen : s.node.closed = false) (hch : s.chClosed = false)
    (hfull : s.committedCh.capacity ≤ s.committedCh.buffer.length) (he : log[s.position]? = some e)
    (hd : e.delivery? = some d) :
    ∃ actions t, Run (step log) OnlyWhenFull s actions t ∧ t.chClosed = true ∧
      t.committedCh.buffer = [] ∧ t.position = s.position + 1 ∧
      d.1 ∈ t.committedCh.dropped.map CommittedRecord.raftIndex := by
  obtain ⟨node, cr, hclosed, hcr, hoffer⟩ :=
    exists_offer hidle (by omega) he hd
  rw [hpending] at hoffer
  let given : CommittedStream C := ⟨node,
    { s.committedCh.offer cr with offered := none, dropped := s.committedCh.dropped ++ [cr] },
    s.position + 1, 0, s.chClosed⟩
  let ended : CommittedStream C := { given with node := { node with closed := true, waitersSeq := ∅ } }
  let final : CommittedStream C := { ended with chClosed := true }
  have hgive : (⟨node, s.committedCh.offer cr, s.position + 1, 1 - 1, s.chClosed⟩ :
      CommittedStream C).step log .expire = some given := rfl
  have hclose : given.step log .close = some ended := if_pos (hclosed.trans hopen)
  have hstop : ended.step log .closeChannel = some final := if_pos ⟨rfl, rfl, rfl, hch⟩
  refine ⟨_, final.emptied, .cons (fun hexpire => by cases hexpire) hoffer
    (.cons (fun _ => hfull) hgive (.cons (fun hexpire => by cases hexpire) hclose
      (.cons (fun hexpire => by cases hexpire) hstop final.run_emptied))), rfl, rfl, rfl, ?_⟩
  change d.1 ∈ (s.committedCh.dropped ++ [cr]).map CommittedRecord.raftIndex
  rw [List.map_append, ← hcr]
  exact List.mem_append_right _ (List.mem_singleton_self _)

end CommittedStream

end Possible

end SevenDB.Raft
