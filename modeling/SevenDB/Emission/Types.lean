import Mathlib.Data.Prod.Lex
import Mathlib.Data.UInt

/-!
# Positions, outbox entries and reconnect messages

The records of the emission package. Epoch counters and commit indices are machine words,
so additions wrap as they do in the source. The comparisons that the source writes out at
every use are named once here and related to the lexicographic order on positions.
-/

namespace SevenDB.Emission

structure EpochID where
  bucketUUID : String
  epochCounter : UInt64
  deriving DecidableEq, Repr

/-- The position of an emission: its epoch, then its commit index. -/
structure EmitSeq where
  epoch : EpochID
  commitIndex : UInt64
  deriving DecidableEq, Repr

/-- The zero value, read from a table of positions at an absent key. -/
def EmitSeq.zero : EmitSeq := ⟨⟨"", 0⟩, 0⟩

/-- An emission waiting for delivery and acknowledgment. -/
structure OutboxEntry where
  subID : String
  seq : EmitSeq
  delta : List UInt8
  deriving DecidableEq, Repr

/-- The message sent to a client. -/
structure DataEvent where
  subID : String
  emitSeq : EmitSeq
  delta : List UInt8
  deriving DecidableEq, Repr

structure ClientAck where
  subID : String
  emitSeq : EmitSeq
  deriving DecidableEq, Repr

/-- The position a client reports when it reconnects. -/
structure ReconnectRequest where
  subID : String
  lastProcessedEmitSeq : EmitSeq
  deriving DecidableEq, Repr

inductive ReconnectStatus
  | ok
  | staleSequence
  | invalidSequence
  | subscriptionNotFound
  deriving DecidableEq, Repr

/-- The answer to a reconnect request, with the index to resume from. -/
structure ReconnectAck where
  status : ReconnectStatus
  currentEpoch : EpochID
  nextCommitIndex : UInt64
  deriving DecidableEq, Repr

/-- The source's `isNewer` comparison: a later epoch, or a later index in the same epoch. -/
def EmitSeq.newer (seq last : EmitSeq) : Bool :=
  seq.epoch.epochCounter > last.epoch.epochCounter ||
    (seq.epoch.epochCounter == last.epoch.epochCounter && seq.commitIndex > last.commitIndex)

/-- The source's opposite comparison: an earlier epoch, or an index already reached in it. -/
def EmitSeq.notAfter (seq last : EmitSeq) : Bool :=
  seq.epoch.epochCounter < last.epoch.epochCounter ||
    (seq.epoch.epochCounter == last.epoch.epochCounter && seq.commitIndex <= last.commitIndex)

def EmitSeq.index (seq : EmitSeq) : ℕ := seq.commitIndex.toNat

/-- The position in the lexicographic order of epoch counter and commit index. -/
def EmitSeq.position (seq : EmitSeq) : ℕ ×ₗ ℕ :=
  toLex (seq.epoch.epochCounter.toNat, seq.commitIndex.toNat)

namespace EmitSeq

theorem position_lt_iff (first second : EmitSeq) :
    first.position < second.position ↔
      first.epoch.epochCounter.toNat < second.epoch.epochCounter.toNat ∨
        first.epoch.epochCounter = second.epoch.epochCounter ∧ first.index < second.index := by
  rw [position, position, Prod.Lex.toLex_lt_toLex, UInt64.toNat_inj]
  rfl

theorem newer_iff (seq last : EmitSeq) :
    seq.newer last = true ↔ last.position < seq.position := by
  rw [position_lt_iff, eq_comm (a := last.epoch.epochCounter)]
  simp only [newer, gt_iff_lt, Bool.or_eq_true, decide_eq_true_eq, Bool.and_eq_true,
    beq_iff_eq, UInt64.lt_iff_toNat_lt, index]

/-- The opposite comparison is the reversed weak order, so the two are complementary. -/
theorem notAfter_iff (seq last : EmitSeq) :
    seq.notAfter last = true ↔ seq.position ≤ last.position := by
  rw [position, position, Prod.Lex.toLex_le_toLex, UInt64.toNat_inj]
  simp only [notAfter, Bool.or_eq_true, decide_eq_true_eq, Bool.and_eq_true,
    beq_iff_eq, UInt64.lt_iff_toNat_lt, UInt64.le_iff_toNat_le]

section

variable {first second : EmitSeq} (hepoch : first.epoch.epochCounter = second.epoch.epochCounter)
include hepoch

/-- Within one epoch the lexicographic order is the order of the indices. -/
theorem position_lt_iff_index :
    first.position < second.position ↔ first.index < second.index := by
  rw [position_lt_iff, hepoch]
  simp

theorem position_le_iff_index :
    first.position ≤ second.position ↔ first.index ≤ second.index := by
  rw [← not_lt, position_lt_iff_index hepoch.symm, not_lt]

end

theorem zero_le_position (seq : EmitSeq) : zero.position ≤ seq.position := by
  rw [← not_lt, position_lt_iff]
  rintro (hlt | ⟨_, hlt⟩)
  · exact Nat.not_lt_zero _ hlt
  · exact Nat.not_lt_zero _ hlt

/-- The zero value is below every position with a positive index. -/
theorem zero_lt_position {seq : EmitSeq} (hindex : 0 < seq.index) :
    zero.position < seq.position := by
  rw [position_lt_iff]
  by_cases hepoch : seq.epoch.epochCounter = 0
  · exact Or.inr ⟨hepoch.symm, hindex⟩
  · refine Or.inl (Nat.pos_of_ne_zero fun hzero => hepoch ?_)
    exact UInt64.toNat_inj.mp hzero

end EmitSeq

def OutboxEntry.index (entry : OutboxEntry) : ℕ := entry.seq.index

def DataEvent.index (event : DataEvent) : ℕ := event.emitSeq.index

/-- The event that carries an entry to the client of a subscription. -/
def OutboxEntry.toEvent (entry : OutboxEntry) (sub : String) : DataEvent :=
  ⟨sub, entry.seq, entry.delta⟩

@[simp] theorem OutboxEntry.toEvent_index (entry : OutboxEntry) (sub : String) :
    (entry.toEvent sub).index = entry.index := rfl

end SevenDB.Emission
