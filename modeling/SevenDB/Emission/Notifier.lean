import SevenDB.Emission.Manager

/-!
# The notifier and the lock sections of one tick

The notifier delivers pending entries and processes acknowledgments. A tick is given twice:
as the function `processTick`, and as the machine `tickStep` whose steps are the sections
between which other threads can run (take the next subscription, take its pending entries,
read the sent watermark, read the resume index, send, mark as sent, clear the resume index).
`tickStep` follows the control flow of the loop body; the outcome of a send is supplied.

Logging, metrics and the hooks that only tests install are left out.
-/

namespace SevenDB.Emission

open SevenDB.Common

/-- The volatile state of a notifier. The flag says whether a purge proposer is wired. -/
structure Notifier where
  proposer : Bool
  ackCh : List ClientAck
  resumeFrom : Table String UInt64
  sentThrough : Table String EmitSeq

/-- A fresh notifier remembers neither watermarks nor resume points. -/
def newNotifier (proposer : Bool) : Notifier where
  proposer := proposer
  ackCh := []
  resumeFrom := ∅
  sentThrough := ∅

def ackCapacity : ℕ := 1024

/-- Queue a client acknowledgment; a full channel blocks the caller. -/
def Notifier.ack (n : Notifier) (ack : ClientAck) : Option Notifier :=
  if n.ackCh.length < ackCapacity then some { n with ackCh := n.ackCh ++ [ack] } else none

/-- The sent watermark of a subscription, the zero value when there is none. -/
def Notifier.lastSent (n : Notifier) (sub : String) : EmitSeq := (n.sentThrough.lookup sub).getD .zero

/-- The resume index of a subscription, zero when there is none. -/
def Notifier.resumeIdx (n : Notifier) (sub : String) : UInt64 := (n.resumeFrom.lookup sub).getD 0

/-- Move the sent watermark up to an acknowledged position. -/
def Notifier.advanceSent (n : Notifier) (ack : ClientAck) : Notifier :=
  match n.sentThrough.lookup ack.subID with
  | none => { n with sentThrough := n.sentThrough.insert ack.subID ack.emitSeq }
  | some last =>
    if ack.emitSeq.newer last then
      { n with sentThrough := n.sentThrough.insert ack.subID ack.emitSeq }
    else n

/-- Process one acknowledgment. The flag says whether it was accepted; an accepted one is
purged at once when no proposer is wired, and proposed for purging otherwise. -/
def Notifier.processAck (n : Notifier) (mgr : Manager) (ack : ClientAck) : Bool × Notifier × Manager :=
  let verdict := mgr.validateAck ack.subID ack.emitSeq
  if verdict.1 then
    if n.proposer then (true, n.advanceSent ack, verdict.2)
    else (true, n.advanceSent ack, verdict.2.applyOutboxPurge ack.subID ack.emitSeq)
  else (false, n, mgr)

section Acks

variable (n : Notifier) (mgr : Manager) (ack : ClientAck)

namespace Notifier

@[simp] theorem resumeFrom_advanceSent : (n.advanceSent ack).resumeFrom = n.resumeFrom := by
  unfold advanceSent
  split
  · rfl
  · split <;> rfl

@[simp] theorem ackCh_advanceSent : (n.advanceSent ack).ackCh = n.ackCh := by
  unfold advanceSent
  split
  · rfl
  · split <;> rfl

/-- Moving the watermark up changes at most the watermark of the acknowledged subscription. -/
theorem lastSent_advanceSent (sub : String) :
    (n.advanceSent ack).lastSent sub = n.lastSent sub ∨
      sub = ack.subID ∧ (n.advanceSent ack).lastSent sub = ack.emitSeq := by
  by_cases hsub : sub = ack.subID
  · subst hsub
    unfold advanceSent
    split
    · exact Or.inr ⟨rfl, by simp [lastSent]⟩
    · split
      · exact Or.inr ⟨rfl, by simp [lastSent]⟩
      · exact Or.inl rfl
  · refine Or.inl ?_
    unfold advanceSent lastSent
    split
    · simp [hsub]
    · split
      · simp [hsub]
      · rfl

theorem lastSent_le_advanceSent (sub : String) :
    (n.lastSent sub).position ≤ ((n.advanceSent ack).lastSent sub).position := by
  by_cases hsub : sub = ack.subID
  · subst hsub
    unfold advanceSent
    split
    · next hnone =>
      rw [lastSent, hnone]
      exact EmitSeq.zero_le_position _
    · next last hlast =>
      split
      · next hnewer =>
        rw [lastSent, hlast, lastSent, Finmap.lookup_insert]
        exact ((EmitSeq.newer_iff _ _).mp hnewer).le
      · exact le_rfl
  · rcases n.lastSent_advanceSent ack sub with heq | ⟨heq, _⟩
    · rw [heq]
    · exact absurd heq hsub

theorem lastSent_le_processAck (sub : String) :
    (n.lastSent sub).position ≤ ((n.processAck mgr ack).2.1.lastSent sub).position := by
  unfold processAck
  dsimp only
  split
  · split <;> exact n.lastSent_le_advanceSent ack sub
  · exact le_rfl

@[simp] theorem resumeFrom_processAck :
    (n.processAck mgr ack).2.1.resumeFrom = n.resumeFrom := by
  unfold processAck
  dsimp only
  split
  · split <;> exact n.resumeFrom_advanceSent ack
  · rfl

@[simp] theorem ackCh_processAck : (n.processAck mgr ack).2.1.ackCh = n.ackCh := by
  unfold processAck
  dsimp only
  split
  · split <;> exact n.ackCh_advanceSent ack
  · rfl

/-- Processing an acknowledgment moves at most the watermark of its subscription, and only
when it is accepted. -/
theorem lastSent_processAck (sub : String) :
    (n.processAck mgr ack).2.1.lastSent sub = n.lastSent sub ∨
      sub = ack.subID ∧ (n.processAck mgr ack).2.1.lastSent sub = ack.emitSeq ∧
        (n.processAck mgr ack).1 = true := by
  unfold processAck
  dsimp only
  split
  · split <;> exact (n.lastSent_advanceSent ack sub).imp_right fun h => ⟨h.1, h.2, rfl⟩
  · exact Or.inl rfl

/-- The manager after an acknowledgment: the position is validated, and then possibly purged. -/
theorem manager_processAck :
    (n.processAck mgr ack).2.2 = (mgr.validateAck ack.subID ack.emitSeq).2 ∨
      (n.processAck mgr ack).2.2 =
        (mgr.validateAck ack.subID ack.emitSeq).2.applyOutboxPurge ack.subID ack.emitSeq := by
  unfold processAck
  dsimp only
  split
  · split
    · exact Or.inl rfl
    · exact Or.inr rfl
  · next hrefused =>
    refine Or.inl ?_
    unfold Manager.validateAck at hrefused ⊢
    split
    · split
      · rfl
      · next hnew => simp_all
    · simp_all

/-- An acknowledgment is accepted by the notifier exactly when the manager accepts it. -/
theorem accepted_processAck :
    (n.processAck mgr ack).1 = (mgr.validateAck ack.subID ack.emitSeq).1 := by
  unfold processAck
  dsimp only
  split
  · next haccepted => split <;> rw [haccepted]
  · next hrefused => exact (Bool.eq_false_iff.mpr hrefused).symm

/-- The last acknowledgment of the manager is the one that validating leaves. -/
theorem lastAck_processAck :
    (n.processAck mgr ack).2.2.lastAck = (mgr.validateAck ack.subID ack.emitSeq).2.lastAck := by
  rcases n.manager_processAck mgr ack with heq | heq
  · rw [heq]
  · rw [heq]
    rfl

end Notifier

end Acks

/-- Set the next commit index to send. An index of zero only deletes an earlier request. -/
def Notifier.setResumeFrom (n : Notifier) (sub : String) (nextCommitIdx : UInt64) : Notifier :=
  if nextCommitIdx = 0 then { n with resumeFrom := n.resumeFrom.erase sub }
  else
    { n with
      resumeFrom := n.resumeFrom.insert sub nextCommitIdx
      sentThrough := n.sentThrough.erase sub }

def hasPrefix (text start : String) : Bool := start.toList.isPrefixOf text.toList

/-- Forget the sent watermarks of all subscriptions of a client. -/
def Notifier.clearWatermarksForClient (n : Notifier) (clientID : String) : Notifier :=
  { n with sentThrough := Table.filterKeys (fun sub => !hasPrefix sub (clientID ++ ":")) n.sentThrough }

section Resume

variable (n : Notifier) (sub other : String) (nextCommitIdx : UInt64) (clientID : String)

/-- A resume request sets the resume index of its subscription, zero meaning none. -/
theorem Notifier.resumeIdx_setResumeFrom :
    (n.setResumeFrom sub nextCommitIdx).resumeIdx other =
      if other = sub then nextCommitIdx else n.resumeIdx other := by
  unfold Notifier.setResumeFrom Notifier.resumeIdx
  by_cases hzero : nextCommitIdx = 0
  · simp only [hzero, if_true, Table.lookup_erase_eq_ite]
    split <;> rfl
  · simp only [hzero, if_false, Table.lookup_insert_eq_ite]
    split <;> rfl

/-- A resume request forgets the watermark of its subscription, unless the index is zero. -/
theorem Notifier.lastSent_setResumeFrom :
    (n.setResumeFrom sub nextCommitIdx).lastSent other =
      if other = sub ∧ nextCommitIdx ≠ 0 then .zero else n.lastSent other := by
  unfold Notifier.setResumeFrom Notifier.lastSent
  by_cases hzero : nextCommitIdx = 0
  · simp [hzero]
  · simp only [hzero, if_false, Table.lookup_erase_eq_ite]
    by_cases hother : other = sub
    · simp [hother, hzero]
    · simp [hother]

/-- Clearing the watermarks of a client forgets those of its subscriptions. -/
theorem Notifier.lastSent_clearWatermarksForClient :
    (n.clearWatermarksForClient clientID).lastSent sub =
      if hasPrefix sub (clientID ++ ":") then .zero else n.lastSent sub := by
  unfold Notifier.clearWatermarksForClient Notifier.lastSent
  rw [Table.lookup_filterKeys]
  cases hasPrefix sub (clientID ++ ":") <;> rfl

end Resume

/-- What became of one attempt to send: accepted by the transport, reported as failed with or
without having reached the client, or not made for want of a sender. -/
inductive SendOutcome
  | delivered
  | failedDelivered
  | failedLost
  | noSender
  deriving DecidableEq, Repr

/-- Where a tick stands, with the local variables that are live there. -/
inductive TickPc
  | idle
  | scan (subs : List String)
  | visit (sub : String) (entries : List OutboxEntry) (subs : List String)
  | watermarkRead (sub : String) (e : OutboxEntry) (entries : List OutboxEntry) (subs : List String)
      (lastSent : EmitSeq)
  | sending (sub : String) (e : OutboxEntry) (entries : List OutboxEntry) (subs : List String)
      (lastSent : EmitSeq) (resumeIdx : UInt64)
  | sendReturned (sub : String) (e : OutboxEntry) (entries : List OutboxEntry) (subs : List String)
      (lastSent : EmitSeq) (resumeIdx : UInt64)
  | marked (sub : String) (e : OutboxEntry) (entries : List OutboxEntry) (subs : List String)
      (resumeIdx : UInt64)
  deriving DecidableEq

/-- Record an entry as sent, judged by the watermark that was read before sending. -/
def Notifier.markSent (n : Notifier) (sub : String) (e : OutboxEntry) (lastSent : EmitSeq) : Notifier :=
  if e.seq.newer lastSent then { n with sentThrough := n.sentThrough.insert sub e.seq } else n

/-- Delete the resume index once an entry at or past the one read before was sent. -/
def Notifier.clearResume (n : Notifier) (sub : String) (e : OutboxEntry) (resumeIdx : UInt64) :
    Notifier :=
  if resumeIdx > 0 && e.seq.commitIndex >= resumeIdx then
    { n with resumeFrom := n.resumeFrom.erase sub }
  else n

/-- The effect of one section of a tick: the notifier, the new standing, the events that
reached their client and the events whose send was reported as successful. -/
structure TickEffect where
  notifier : Notifier
  pc : TickPc
  reached : List DataEvent
  sent : List DataEvent

/-- Execute one section of a tick. The outcome only matters where an event is sent. -/
def Notifier.tickStep (n : Notifier) (mgr : Manager) (outcome : SendOutcome) : TickPc → TickEffect
  | .idle => ⟨n, .idle, [], []⟩
  | .scan [] => ⟨n, .idle, [], []⟩
  | .scan (sub :: subs) => ⟨n, .visit sub (mgr.pending sub) subs, [], []⟩
  | .visit _ [] subs => ⟨n, .scan subs, [], []⟩
  | .visit sub (e :: entries) subs => ⟨n, .watermarkRead sub e entries subs (n.lastSent sub), [], []⟩
  | .watermarkRead sub e entries subs lastSent =>
    if e.seq.notAfter lastSent then ⟨n, .visit sub entries subs, [], []⟩
    else if n.resumeIdx sub > 0 && e.seq.commitIndex < n.resumeIdx sub then
      ⟨n, .visit sub entries subs, [], []⟩
    else ⟨n, .sending sub e entries subs lastSent (n.resumeIdx sub), [], []⟩
  | .sending sub e entries subs lastSent resumeIdx =>
    match outcome with
    | .delivered =>
      ⟨n, .sendReturned sub e entries subs lastSent resumeIdx, [e.toEvent sub], [e.toEvent sub]⟩
    | .failedDelivered => ⟨n, .scan subs, [e.toEvent sub], []⟩
    | .failedLost => ⟨n, .scan subs, [], []⟩
    | .noSender => ⟨n, .scan subs, [], []⟩
  | .sendReturned sub e entries subs lastSent resumeIdx =>
    ⟨n.markSent sub e lastSent, .marked sub e entries subs resumeIdx, [], []⟩
  | .marked sub e entries subs resumeIdx =>
    ⟨n.clearResume sub e resumeIdx, .visit sub entries subs, [], []⟩

/-- Visit the pending entries of one subscription; the events sent successfully are listed. -/
def Notifier.processEntries (send : DataEvent → SendOutcome) (sub : String) :
    Notifier → List OutboxEntry → Notifier × List DataEvent
  | n, [] => (n, [])
  | n, e :: entries =>
    if e.seq.notAfter (n.lastSent sub) then Notifier.processEntries send sub n entries
    else if n.resumeIdx sub > 0 && e.seq.commitIndex < n.resumeIdx sub then
      Notifier.processEntries send sub n entries
    else if send (e.toEvent sub) = .delivered then
      let marked := (n.markSent sub e (n.lastSent sub)).clearResume sub e (n.resumeIdx sub)
      let rest := Notifier.processEntries send sub marked entries
      (rest.1, e.toEvent sub :: rest.2)
    else (n, [])

/-- One whole scan over the listed subscriptions, with nothing else running. -/
def Notifier.processTick (send : DataEvent → SendOutcome) (mgr : Manager) :
    Notifier → List String → Notifier × List DataEvent
  | n, [] => (n, [])
  | n, sub :: subs =>
    let visited := Notifier.processEntries send sub n (mgr.pending sub)
    let rest := Notifier.processTick send mgr visited.1 subs
    (rest.1, visited.2 ++ rest.2)

end SevenDB.Emission
