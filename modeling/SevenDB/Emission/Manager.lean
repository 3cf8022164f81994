import SevenDB.Emission.Outbox

/-!
# The outbox manager

The manager owns the outbox of a bucket, the last accepted acknowledgment and the compaction
watermark of each subscription, and the epoch in which it currently emits. Its operations
are applied from the raft pipeline and from client commands; each of them is atomic here.
The gauges that the source updates beside them are not part of this state.
-/

namespace SevenDB.Emission

open SevenDB.Common

/-- The state behind the apply and acknowledgment paths of one bucket. -/
structure Manager where
  ob : OutboxState
  lastAck : Table String EmitSeq
  compactThrough : Table String EmitSeq
  bucketID : String
  currentEpoch : EpochID

/-- A manager with nothing pending, nothing acknowledged and the zero epoch. -/
def newManager (bucketID : String) : Manager where
  ob := newOutboxState
  lastAck := ∅
  compactThrough := ∅
  bucketID := bucketID
  currentEpoch := ⟨"", 0⟩

/-- Set the epoch that reconnecting clients are compared with. -/
def Manager.setCurrentEpoch (m : Manager) (e : EpochID) : Manager := { m with currentEpoch := e }

def Manager.applyOutboxWrite (m : Manager) (sub : String) (seq : EmitSeq) (delta : List UInt8) :
    Manager :=
  { m with ob := (m.ob.write ⟨sub, seq, delta⟩).1 }

/-- Set the compaction watermark of a subscription, whatever it was before. -/
def Manager.setCompactedThrough (m : Manager) (sub : String) (seq : EmitSeq) : Manager :=
  { m with compactThrough := m.compactThrough.insert sub seq }

/-- Remove the entries up to the position and move the compaction watermark there. -/
def Manager.applyOutboxPurge (m : Manager) (sub : String) (upTo : EmitSeq) : Manager :=
  Manager.setCompactedThrough { m with ob := (m.ob.purge sub upTo.commitIndex).1 } sub upTo

/-- Accept an acknowledgment that is newer than the last accepted one. -/
def Manager.validateAck (m : Manager) (sub : String) (seq : EmitSeq) : Bool × Manager :=
  match m.lastAck.lookup sub with
  | some last =>
    if seq.notAfter last then (false, m)
    else (true, { m with lastAck := m.lastAck.insert sub seq })
  | none => (true, { m with lastAck := m.lastAck.insert sub seq })

/-- The subscriptions with pending entries. The source lists them in no particular order. -/
def Manager.subsWithPending (m : Manager) : Finset String := m.ob.bySub.keys

/-- The pending entries of a subscription in the order in which they are visited. -/
def Manager.pending (m : Manager) (sub : String) : List OutboxEntry := m.ob.pendingSorted sub

/-- Compare the position a client reports with the watermarks of its subscription. -/
def Manager.reconnect (m : Manager) (req : ReconnectRequest) : ReconnectAck :=
  let compacted := (m.compactThrough.lookup req.subID).getD .zero
  let last := m.lastAck.lookup req.subID
  let position := req.lastProcessedEmitSeq
  if position.epoch.epochCounter ≠ m.currentEpoch.epochCounter then
    ⟨.ok, m.currentEpoch, 0⟩
  else if last.isSome && position.commitIndex > (last.getD .zero).commitIndex then
    ⟨.invalidSequence, m.currentEpoch, (last.getD .zero).commitIndex + 1⟩
  else if position.commitIndex < compacted.commitIndex then
    ⟨.staleSequence, m.currentEpoch, compacted.commitIndex⟩
  else
    ⟨.ok, m.currentEpoch, position.commitIndex + 1⟩

/-- The entry pending for a subscription at a commit index. -/
def Manager.entryAt (m : Manager) (sub : String) (idx : UInt64) : Option OutboxEntry :=
  m.ob.entryAt sub idx

/-- An entry is pending for its own subscription. -/
def Manager.IsPending (m : Manager) (entry : OutboxEntry) : Prop :=
  m.entryAt entry.subID entry.seq.commitIndex = some entry

instance (m : Manager) (entry : OutboxEntry) : Decidable (m.IsPending entry) :=
  inferInstanceAs (Decidable (_ = _))

section Effects

variable (m : Manager) (sub other : String) (seq : EmitSeq) (delta : List UInt8) (idx : UInt64)

namespace Manager

/-- A write changes exactly the entry at its own subscription and commit index. -/
theorem entryAt_applyOutboxWrite :
    (m.applyOutboxWrite sub seq delta).entryAt other idx =
      if other = sub ∧ idx = seq.commitIndex then some ⟨sub, seq, delta⟩ else m.entryAt other idx :=
  m.ob.entryAt_write ⟨sub, seq, delta⟩ other idx

/-- A purge removes exactly the entries of its subscription at or below the commit index. -/
theorem entryAt_applyOutboxPurge :
    (m.applyOutboxPurge sub seq).entryAt other idx =
      if other = sub ∧ idx ≤ seq.commitIndex then none else m.entryAt other idx :=
  m.ob.entryAt_purge sub seq.commitIndex other idx

@[simp] theorem ob_validateAck : (m.validateAck sub seq).2.ob = m.ob := by
  unfold validateAck
  split
  · split <;> rfl
  · rfl

@[simp] theorem entryAt_validateAck :
    (m.validateAck sub seq).2.entryAt other idx = m.entryAt other idx := by
  unfold entryAt
  rw [ob_validateAck]

@[simp] theorem currentEpoch_validateAck :
    (m.validateAck sub seq).2.currentEpoch = m.currentEpoch := by
  unfold validateAck
  split
  · split <;> rfl
  · rfl

/-- An acknowledgment is accepted exactly when it is newer than the last accepted one. -/
theorem validateAck_accepted_iff :
    (m.validateAck sub seq).1 = true ↔
      ∀ last, m.lastAck.lookup sub = some last → last.position < seq.position := by
  unfold validateAck
  cases hlast : m.lastAck.lookup sub with
  | none => simp
  | some last =>
    by_cases hold : seq.notAfter last = true
    · simp [hold, (seq.notAfter_iff last).mp hold]
    · have hnew : ¬ seq.position ≤ last.position := fun h => hold ((seq.notAfter_iff last).mpr h)
      simp [hold, not_le.mp hnew]

/-- An accepted acknowledgment becomes the last one; a refused one changes nothing. -/
theorem lastAck_validateAck :
    (m.validateAck sub seq).2.lastAck.lookup other =
      if other = sub ∧ (m.validateAck sub seq).1 = true then some seq else m.lastAck.lookup other := by
  unfold validateAck
  cases hlast : m.lastAck.lookup sub with
  | none =>
    simp [Table.lookup_insert_eq_ite]
  | some last =>
    by_cases hold : seq.notAfter last = true
    · simp [hold]
    · simp [hold, Table.lookup_insert_eq_ite]

end Manager

end Effects

section Pending

variable (m : Manager) (sub : String) (seq : EmitSeq) (delta : List UInt8) (e : OutboxEntry)

/-- After a write the entries at its place are the one written, and nothing else changed. -/
theorem Manager.isPending_applyOutboxWrite :
    (m.applyOutboxWrite sub seq delta).IsPending e ↔
      if e.subID = sub ∧ e.seq.commitIndex = seq.commitIndex then e = ⟨sub, seq, delta⟩
      else m.IsPending e := by
  rw [Manager.IsPending, Manager.entryAt_applyOutboxWrite]
  split
  · rw [Option.some_inj, eq_comm]
  · rfl

/-- A purge keeps the entries of other subscriptions and those above its index. -/
theorem Manager.isPending_applyOutboxPurge :
    (m.applyOutboxPurge sub seq).IsPending e ↔ m.IsPending e ∧ (e.subID = sub → seq.index < e.index) := by
  rw [Manager.IsPending, Manager.entryAt_applyOutboxPurge]
  have hle : e.seq.commitIndex ≤ seq.commitIndex ↔ ¬ seq.index < e.index := by
    rw [UInt64.le_iff_toNat_le, not_lt]
    rfl
  split
  · next hgone =>
    constructor
    · intro h
      cases h
    · rintro ⟨_, habove⟩
      exact absurd (habove hgone.1) (hle.mp hgone.2)
  · next hkept =>
    refine ⟨fun h => ⟨h, fun hsub => ?_⟩, fun h => h.1⟩
    by_contra hnot
    exact hkept ⟨hsub, hle.mpr hnot⟩

@[simp] theorem Manager.isPending_validateAck :
    (m.validateAck sub seq).2.IsPending e ↔ m.IsPending e := by
  rw [Manager.IsPending, Manager.entryAt_validateAck, Manager.IsPending]

end Pending

/-- The pending list of a subscription holds exactly its pending entries. -/
theorem Manager.mem_pending_iff (m : Manager) (sub : String) (entry : OutboxEntry) :
    entry ∈ m.pending sub ↔ entry.subID = sub ∧ m.IsPending entry := by
  rw [Manager.pending, OutboxState.mem_pendingSorted]
  constructor
  · intro h
    have hsub := (OutboxState.entryAt_filed h).1
    subst hsub
    exact ⟨rfl, h⟩
  · rintro ⟨rfl, h⟩
    exact h

theorem Manager.mem_subsWithPending {m : Manager} {entry : OutboxEntry} (h : m.IsPending entry) :
    entry.subID ∈ m.subsWithPending := by
  unfold Manager.IsPending Manager.entryAt OutboxState.entryAt OutboxState.entries at h
  rw [Manager.subsWithPending, Finmap.mem_keys]
  by_contra hmem
  rw [Finmap.lookup_eq_none.mpr hmem] at h
  simp at h

/-- A request is answered by the restart branch, which does not look at its index. -/
def Manager.Restarts (m : Manager) (req : ReconnectRequest) : Prop :=
  req.lastProcessedEmitSeq.epoch.epochCounter ≠ m.currentEpoch.epochCounter

theorem Manager.reconnect_congr (m : Manager) (sub : String) {first second : EpochID}
    (h : first.epochCounter = second.epochCounter) (idx : UInt64) :
    m.reconnect ⟨sub, ⟨first, idx⟩⟩ = m.reconnect ⟨sub, ⟨second, idx⟩⟩ := by
  simp only [Manager.reconnect, h]

/-- The compaction watermark of a subscription, the zero value when there is none. -/
def Manager.compacted (m : Manager) (sub : String) : EmitSeq := (m.compactThrough.lookup sub).getD .zero

section Reconnecting

variable (m : Manager) (req : ReconnectRequest)
  (hepoch : req.lastProcessedEmitSeq.epoch.epochCounter = m.currentEpoch.epochCounter)
include hepoch

/-- The answers to a request of the current epoch, with what each of them says. -/
theorem Manager.reconnect_cases :
    (∃ last, m.lastAck.lookup req.subID = some last ∧ last.index < req.lastProcessedEmitSeq.index ∧
      m.reconnect req = ⟨.invalidSequence, m.currentEpoch, last.commitIndex + 1⟩) ∨
    (∀ last, m.lastAck.lookup req.subID = some last → req.lastProcessedEmitSeq.index ≤ last.index) ∧
      ((req.lastProcessedEmitSeq.index < (m.compacted req.subID).index ∧
        m.reconnect req = ⟨.staleSequence, m.currentEpoch, (m.compacted req.subID).commitIndex⟩) ∨
      ((m.compacted req.subID).index ≤ req.lastProcessedEmitSeq.index ∧
        m.reconnect req = ⟨.ok, m.currentEpoch, req.lastProcessedEmitSeq.commitIndex + 1⟩)) := by
  have hrest (hvalid : ¬ ((m.lastAck.lookup req.subID).isSome &&
      req.lastProcessedEmitSeq.commitIndex > ((m.lastAck.lookup req.subID).getD .zero).commitIndex) = true) :
      (req.lastProcessedEmitSeq.index < (m.compacted req.subID).index ∧
        m.reconnect req = ⟨.staleSequence, m.currentEpoch, (m.compacted req.subID).commitIndex⟩) ∨
      ((m.compacted req.subID).index ≤ req.lastProcessedEmitSeq.index ∧
        m.reconnect req = ⟨.ok, m.currentEpoch, req.lastProcessedEmitSeq.commitIndex + 1⟩) := by
    have hlt : req.lastProcessedEmitSeq.commitIndex < (m.compacted req.subID).commitIndex ↔
        req.lastProcessedEmitSeq.index < (m.compacted req.subID).index := UInt64.lt_iff_toNat_lt
    by_cases hstale : req.lastProcessedEmitSeq.commitIndex < (m.compacted req.subID).commitIndex
    · refine Or.inl ⟨hlt.mp hstale, ?_⟩
      rw [Manager.reconnect, if_neg (not_not.mpr hepoch), if_neg hvalid]
      exact if_pos hstale
    · refine Or.inr ⟨not_lt.mp fun h => hstale (hlt.mpr h), ?_⟩
      rw [Manager.reconnect, if_neg (not_not.mpr hepoch), if_neg hvalid]
      exact if_neg hstale
  cases hlast : m.lastAck.lookup req.subID with
  | none =>
    refine Or.inr ⟨fun last h => (by cases h), hrest ?_⟩
    simp [hlast]
  | some last =>
    have hlt : last.commitIndex < req.lastProcessedEmitSeq.commitIndex ↔
        last.index < req.lastProcessedEmitSeq.index := UInt64.lt_iff_toNat_lt
    by_cases hbeyond : last.commitIndex < req.lastProcessedEmitSeq.commitIndex
    · refine Or.inl ⟨last, rfl, hlt.mp hbeyond, ?_⟩
      rw [Manager.reconnect, if_neg (not_not.mpr hepoch), hlast]
      exact if_pos (by simpa using hbeyond)
    · refine Or.inr ⟨fun other h => ?_, hrest ?_⟩
      · cases h
        exact not_lt.mp fun h => hbeyond (hlt.mpr h)
      · simpa [hlast] using hbeyond

/-- A request of the current epoch is invalid exactly when an acknowledgment was accepted and
the position is beyond it. -/
theorem Manager.reconnect_invalid_iff :
    (m.reconnect req).status = .invalidSequence ↔
      ∃ last, m.lastAck.lookup req.subID = some last ∧ last.index < req.lastProcessedEmitSeq.index := by
  rcases m.reconnect_cases req hepoch with ⟨last, hlast, hlt, heq⟩ | ⟨hvalid, hstale | hok⟩
  · rw [heq]
    exact ⟨fun _ => ⟨last, hlast, hlt⟩, fun _ => rfl⟩
  · rw [hstale.2]
    refine ⟨fun h => (by cases h), ?_⟩
    rintro ⟨last, hlast, hlt⟩
    exact absurd (hvalid last hlast) (not_le.mpr hlt)
  · rw [hok.2]
    refine ⟨fun h => (by cases h), ?_⟩
    rintro ⟨last, hlast, hlt⟩
    exact absurd (hvalid last hlast) (not_le.mpr hlt)

/-- A request of the current epoch that is not invalid is stale below the compaction watermark
and OK from there on. -/
theorem Manager.reconnect_status :
    (m.reconnect req).status = .invalidSequence ∨
      (m.reconnect req).status =
        if req.lastProcessedEmitSeq.index < (m.compacted req.subID).index then .staleSequence else .ok := by
  rcases m.reconnect_cases req hepoch with ⟨_, _, _, heq⟩ | ⟨_, ⟨hbelow, heq⟩ | ⟨habove, heq⟩⟩
  · exact Or.inl (by rw [heq])
  · exact Or.inr (by rw [heq, if_pos hbelow])
  · exact Or.inr (by rw [heq, if_neg (not_lt.mpr habove)])

/-- A request of the current epoch that is answered with OK is sent on to the next index. -/
theorem Manager.reconnect_ok (hok : (m.reconnect req).status = .ok) :
    (m.reconnect req).nextCommitIndex = req.lastProcessedEmitSeq.commitIndex + 1 := by
  rcases m.reconnect_cases req hepoch with ⟨last, _, _, heq⟩ | ⟨_, hstale | hgo⟩
  · rw [heq] at hok
    cases hok
  · rw [hstale.2] at hok
    cases hok
  · rw [hgo.2]

end Reconnecting

end SevenDB.Emission
