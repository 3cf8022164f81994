import SevenDB.Common.GuardedRun
import SevenDB.Emission.AckHistory

/-!
# What a reconnect is answered

Over every sequence of writes, purges, acknowledgments, rebinds and epoch changes, the answer to
a request of the current epoch depends on two positions only: the newest acknowledgment that
the subscription has received, through all rebinds, and its compaction watermark. Nothing in
the manager records which subscriptions exist, so no request is answered with not found.
-/

namespace SevenDB.Emission

open SevenDB.Common

inductive ManagerOp
  | write (sub : String) (seq : EmitSeq) (delta : List UInt8)
  | purge (sub : String) (upTo : EmitSeq)
  | ack (sub : String) (seq : EmitSeq)
  | rebind (order : SearchOrder) (fp : UInt64) (oldClientID newClientID : String)
  | setCurrentEpoch (epoch : EpochID)

/-- A manager with the acknowledgments that each subscription has received. -/
structure AckedManager where
  mgr : Manager
  received : String → List EmitSeq

/-- A manager that has received nothing. -/
def AckedManager.init (bucketID : String) : AckedManager where
  mgr := newManager bucketID
  received := fun _ => []

/-- The histories after one subscription took over another. -/
def takeOver (received : String → List EmitSeq) (oldSub newSub : String) (sub : String) : List EmitSeq :=
  if sub = newSub then received newSub ++ received oldSub
  else if sub = oldSub then [] else received sub

/-- Rebind a subscription, with its history. -/
def AckedManager.rebind (a : AckedManager) (order : SearchOrder) (fp : UInt64)
    (oldClientID newClientID : String) : AckedManager :=
  let result := a.mgr.rebindByFingerprint order fp oldClientID newClientID
  { mgr := result.mgr
    received :=
      if result.oldSub = "" ∨ result.oldSub = result.newSub then a.received
      else takeOver a.received result.oldSub result.newSub }

/-- Apply an operation. A rebind can search the maps of the manager in any order. -/
def AckedManager.step (a : AckedManager) : ManagerOp → Option AckedManager
  | .write sub seq delta => some { a with mgr := a.mgr.applyOutboxWrite sub seq delta }
  | .purge sub upTo => some { a with mgr := a.mgr.applyOutboxPurge sub upTo }
  | .ack sub seq =>
    some
      { mgr := (a.mgr.validateAck sub seq).2
        received := fun other => if other = sub then a.received other ++ [seq] else a.received other }
  | .rebind order fp oldClientID newClientID =>
    if order.Covers a.mgr then some (a.rebind order fp oldClientID newClientID) else none
  | .setCurrentEpoch epoch => some { a with mgr := a.mgr.setCurrentEpoch epoch }

/-- The last acknowledgment recorded for every subscription is the newest it has received. -/
def AckedManager.UpToDate (a : AckedManager) : Prop :=
  ∀ sub, Newest (a.received sub) (a.mgr.lastAck.lookup sub)

theorem AckedManager.UpToDate.rebind {a : AckedManager} (h : a.UpToDate) (order : SearchOrder)
    (fp : UInt64) (oldClientID newClientID : String) :
    (a.rebind order fp oldClientID newClientID).UpToDate := by
  intro sub
  unfold AckedManager.rebind
  dsimp only
  rw [Manager.rebindByFingerprint_mgr]
  split
  · exact h sub
  · next hmoved =>
    rw [not_or] at hmoved
    change Newest _ (Finmap.lookup sub (moveMark a.mgr.lastAck _ _))
    rw [lookup_moveMark _ hmoved.2, takeOver]
    split
    · exact (h _).laterMark (h _)
    · split
      · rfl
      · exact h sub

theorem AckedManager.UpToDate.step {a next : AckedManager} {op : ManagerOp} (h : a.UpToDate)
    (hstep : a.step op = some next) : next.UpToDate := by
  cases op with
  | ack target seq =>
    cases hstep
    intro sub
    dsimp only
    by_cases hsub : sub = target
    · subst hsub
      rw [if_pos rfl]
      exact (h sub).validateAck
    · rw [if_neg hsub, Manager.lastAck_validateAck, if_neg fun hboth => hsub hboth.1]
      exact h sub
  | rebind order fp oldClientID newClientID =>
    simp only [AckedManager.step] at hstep
    split at hstep
    · cases hstep
      exact h.rebind order fp oldClientID newClientID
    · cases hstep
  | write | purge | setCurrentEpoch =>
    cases hstep
    exact h

/-- A position lies beyond the newest of the positions received. -/
def BeyondNewest (received : List EmitSeq) (position : EmitSeq) : Prop :=
  ∃ newest ∈ received, (∀ seq ∈ received, seq.position ≤ newest.position) ∧ newest.index < position.index

/-- A request is answered as invalid exactly when its position is beyond the newest
acknowledgment received. -/
theorem AckedManager.UpToDate.invalid_iff {a : AckedManager} (h : a.UpToDate) (req : ReconnectRequest)
    (hepoch : req.lastProcessedEmitSeq.epoch.epochCounter = a.mgr.currentEpoch.epochCounter) :
    (a.mgr.reconnect req).status = .invalidSequence ↔
      BeyondNewest (a.received req.subID) req.lastProcessedEmitSeq := by
  rw [Manager.reconnect_invalid_iff _ _ hepoch]
  have hnewest := h req.subID
  constructor
  · rintro ⟨last, hlast, hbeyond⟩
    rw [hlast] at hnewest
    exact ⟨last, hnewest.1, hnewest.2, hbeyond⟩
  · rintro ⟨newest, hreceived, hgreatest, hbeyond⟩
    cases hlast : a.mgr.lastAck.lookup req.subID with
    | none =>
      rw [hlast] at hnewest
      have hnone : a.received req.subID = [] := hnewest
      rw [hnone] at hreceived
      cases hreceived
    | some last =>
      rw [hlast] at hnewest
      have hsame : last.position = newest.position :=
        le_antisymm (hgreatest last hnewest.1) (hnewest.2 newest hreceived)
      have hindex : last.index = newest.index := congrArg (fun position => (ofLex position).2) hsame
      exact ⟨last, rfl, hindex ▸ hbeyond⟩

/-- In every reachable state a request of the current epoch is never answered with not found. It
is invalid exactly when it is beyond the newest acknowledgment received, otherwise stale exactly
when it is below the compaction watermark, and otherwise OK with the next index. -/
theorem reconnect_status_law (bucketID : String) {ops : List ManagerOp} {a : AckedManager}
    (hrun : Run AckedManager.step (fun _ _ => True) (AckedManager.init bucketID) ops a)
    (req : ReconnectRequest)
    (hepoch : req.lastProcessedEmitSeq.epoch.epochCounter = a.mgr.currentEpoch.epochCounter) :
    (a.mgr.reconnect req).status ≠ .subscriptionNotFound ∧
    ((a.mgr.reconnect req).status = .invalidSequence ↔
      BeyondNewest (a.received req.subID) req.lastProcessedEmitSeq) ∧
    ((a.mgr.reconnect req).status = .staleSequence ↔
      ¬ BeyondNewest (a.received req.subID) req.lastProcessedEmitSeq ∧
        req.lastProcessedEmitSeq.index < (a.mgr.compacted req.subID).index) ∧
    ((a.mgr.reconnect req).status = .ok ↔
      ¬ BeyondNewest (a.received req.subID) req.lastProcessedEmitSeq ∧
        ¬ req.lastProcessedEmitSeq.index < (a.mgr.compacted req.subID).index) ∧
    ((a.mgr.reconnect req).status = .ok → req.lastProcessedEmitSeq.index < 2 ^ 64 - 1 →
      (a.mgr.reconnect req).nextCommitIndex.toNat = req.lastProcessedEmitSeq.index + 1) := by
  have h : a.UpToDate :=
    hrun.invariant AckedManager.UpToDate (fun _ _ _ hinv _ hstep => hinv.step hstep) fun _ => rfl
  have hinvalid := h.invalid_iff req hepoch
  have hnext : (a.mgr.reconnect req).status = .ok → req.lastProcessedEmitSeq.index < 2 ^ 64 - 1 →
      (a.mgr.reconnect req).nextCommitIndex.toNat = req.lastProcessedEmitSeq.index + 1 := by
    intro hok hbound
    rw [Manager.reconnect_ok _ _ hepoch hok, UInt64.toNat_add, UInt64.toNat_one]
    change (req.lastProcessedEmitSeq.index + 1) % 2 ^ 64 = _
    omega
  rw [← hinvalid]
  rcases a.mgr.reconnect_status req hepoch with hstatus | hstatus
  · simp [hstatus]
  · refine ⟨?_, Iff.rfl, ?_, ?_, hnext⟩
    all_goals
      rw [hstatus]
      split
      · next hbelow => simp [hbelow]
      · next habove => simp [habove]

/-- A subscription with two acknowledgments is taken over by a client that comes back; the later
of the two is what its position is compared with. -/
theorem reconnect_status_law_rebound :
    ∃ a : AckedManager, a.received "new:42" = [⟨⟨"b", 0⟩, 3⟩, ⟨⟨"b", 0⟩, 2⟩] ∧
      (a.mgr.reconnect ⟨"new:42", ⟨⟨"b", 0⟩, 3⟩⟩).status = .ok ∧
      (a.mgr.reconnect ⟨"new:42", ⟨⟨"b", 0⟩, 3⟩⟩).nextCommitIndex.toNat = 4 := by
  obtain ⟨a, hrun, ha⟩ := exists_run_of_check AckedManager.step (fun _ _ => True) (AckedManager.init "b")
    [.write "old:42" ⟨⟨"b", 0⟩, 3⟩ [1], .ack "old:42" ⟨⟨"b", 0⟩, 3⟩, .ack "old:42" ⟨⟨"b", 0⟩, 2⟩,
      .rebind ⟨["old:42"], ["old:42"], []⟩ 42 "" "new"]
    (fun a => decide (a.received "new:42" = [⟨⟨"b", 0⟩, 3⟩, ⟨⟨"b", 0⟩, 2⟩] ∧
      a.mgr.currentEpoch.epochCounter = 0 ∧ (a.mgr.reconnect ⟨"new:42", ⟨⟨"b", 0⟩, 3⟩⟩).status = .ok))
    (by decide)
  obtain ⟨hreceived, hepoch, hok⟩ := of_decide_eq_true ha
  have hlaw := reconnect_status_law "b" hrun ⟨"new:42", ⟨⟨"b", 0⟩, 3⟩⟩ hepoch.symm
  exact ⟨a, hreceived, hok, hlaw.2.2.2.2 hok (by decide)⟩

/-- A subscription that was never seen is told to go on. -/
theorem unseen_subscription_ok :
    ∃ a : AckedManager, Run AckedManager.step (fun _ _ => True) (AckedManager.init "b") [] a ∧
      (a.mgr.reconnect ⟨"s", ⟨a.mgr.currentEpoch, 3⟩⟩).status = .ok :=
  ⟨AckedManager.init "b", .nil _, by decide⟩

end SevenDB.Emission
