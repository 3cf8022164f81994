import SevenDB.Raft.Node
import SevenDB.Raft.Storage
import SevenDB.RaftWal.Writer
import SevenDB.Wal.RoundTrip

/-!
# What a shard raft node writes into its logs

Of a committed entry a log gets the index, the term and the payload of the record in it, or the data
of a change of the configuration. A normal entry whose data cannot be unmarshalled is not written.
The adapter of the process-wide log makes a command of the payload and passes over a payload that is
none. The shadow log gets an envelope. How data and payloads are unmarshalled is a parameter.
-/

namespace SevenDB.Raft

open SevenDB.Common

/-- How the data of an entry and the payload of a record are unmarshalled, and the command of an empty
payload. -/
structure Unmarshal (C : Type) where
  wireRecord : List UInt8 → Option WireRecord
  replicationPayload : List UInt8 → Option C
  blank : C

/-- Data that is its own payload, and a command for every payload. -/
def plainUnmarshal : Unmarshal ℕ := ⟨fun data => some ⟨0, "b", 1001, data⟩, fun payload => some payload.length, 0⟩

structure WALMetadata where
  bucket : String
  opcode : UInt32
  sequence : UInt64
  deriving DecidableEq, Repr

/-- What a log is given of an entry. -/
structure WALEntry where
  index : UInt64
  term : UInt64
  appBytes : List UInt8
  metadata : WALMetadata
  deriving DecidableEq, Repr

/-- What is written of a committed entry: nothing if its data cannot be unmarshalled. -/
def walEntry {C : Type} (json : Unmarshal C) (ent : Entry) : Option WALEntry :=
  match ent.type with
  | .normal =>
    if ent.data = [] then some ⟨.ofNat ent.index, .ofNat ent.term, [], ⟨"", 1001, 0⟩⟩
    else
      (json.wireRecord ent.data).map fun wr =>
        ⟨.ofNat ent.index, .ofNat ent.term, wr.payload, ⟨wr.bucketID, .ofInt wr.type, wr.seq⟩⟩
  | .confChange | .confChangeV2 => some ⟨.ofNat ent.index, .ofNat ent.term, ent.data, ⟨"", 0, 0⟩⟩

/-- The call that the adapter of the process-wide log makes for an entry: none if the payload is no
command. -/
def forgeCall {C : Type} (json : Unmarshal C) (w : WALEntry) : Option (Wal.ForgeCall C) :=
  if w.appBytes = [] then some (.normal ⟨w.index, w.term, w.metadata.sequence.toUInt32, some json.blank, []⟩)
  else
    (json.replicationPayload w.appBytes).map fun cmd =>
      .normal ⟨w.index, w.term, w.metadata.sequence.toUInt32, some cmd, w.appBytes⟩

/-- A call of the adapter appends the index, the term and the payload of its entry. -/
theorem forgeCall_eq_some {C : Type} {json : Unmarshal C} {w : WALEntry} {c : Wal.ForgeCall C}
    (h : forgeCall json w = some c) :
    ∃ subSeq cmd, c = .normal ⟨w.index, w.term, subSeq, some cmd, w.appBytes⟩ := by
  rw [forgeCall] at h
  split at h
  · next hempty =>
    cases h
    exact ⟨_, _, by rw [hempty]⟩
  · obtain ⟨cmd, _, rfl⟩ := Option.map_eq_some_iff.mp h
    exact ⟨_, cmd, rfl⟩

/-- The envelope that the shadow log gets for an entry. -/
def shadowEnvelope (crc : List UInt8 → UInt32) (w : WALEntry) : RaftWal.Envelope :=
  ⟨w.index, w.term, .normal, w.appBytes, crc w.appBytes, 0, "default", w.metadata.bucket, w.metadata.opcode,
    w.metadata.sequence⟩

/-- A hard state is written when it says something that the one written last does not. -/
def WritesHardState (last hardState : HardState) : Prop := hardState ≠ .empty ∧ hardState ≠ last

instance (last hardState : HardState) : Decidable (WritesHardState last hardState) :=
  inferInstanceAs (Decidable (_ ∧ _))

/-- The calls to the process-wide log that processing a batch makes: the hard state, then the committed
entries. -/
def readyCalls {C : Type} (json : Unmarshal C) (hsCodec : ByteCodec HardState) (last hardState : HardState)
    (committed : List Entry) : List (Wal.ForgeCall C) :=
  (if WritesHardState last hardState then [.hardState (hsCodec.encode hardState)] else []) ++
    committed.filterMap fun ent => (walEntry json ent).bind (forgeCall json)

end SevenDB.Raft
