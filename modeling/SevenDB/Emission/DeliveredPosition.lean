import SevenDB.Emission.AckHistory
import SevenDB.Emission.Served

/-!
# Reconnecting with a delivered position

In a run within one epoch the position of a delivered event is rejected as invalid exactly when
acknowledgments of the subscription were accepted and all of them are for earlier entries: the
answer is computed from the last accepted acknowledgment, not from what was sent.
-/

namespace SevenDB.Emission

open SevenDB.Common

/-- Entries and acknowledgments of the subscription belong to one epoch. -/
def OneEpoch (epoch : EpochID) (sub : String) (_ : World) : Action → Prop
  | .write target seq _ => target = sub → seq.epoch = epoch
  | .ack ack => ack.subID = sub → ack.emitSeq.epoch = epoch
  | .applyAck ack => ack.subID = sub → ack.emitSeq.epoch = epoch
  | _ => True

instance (epoch : EpochID) (sub : String) (w : World) (action : Action) :
    Decidable (OneEpoch epoch sub w action) := by
  rcases action with _ | _ | _ | _ | _ | _ | _ | _ | _ | _ <;> dsimp only [OneEpoch] <;> infer_instance

/-- The positions of a subscription among the acknowledgments listed. -/
def positionsFor (sub : String) (acks : List ClientAck) : List EmitSeq :=
  (acks.filter fun ack => ack.subID = sub).map ClientAck.emitSeq

/-- A position is listed when an acknowledgment of the subscription carries it. -/
theorem mem_positionsFor {sub : String} {acks : List ClientAck} {seq : EmitSeq} :
    seq ∈ positionsFor sub acks ↔ ∃ ack ∈ acks, ack.subID = sub ∧ ack.emitSeq = seq := by
  simp [positionsFor, and_assoc]

/-- Everything of the subscription is of the epoch, and the last acknowledgment recorded is the
newest one accepted. -/
structure EpochHistory (epoch : EpochID) (sub : String) (w : World) : Prop where
  current : w.mgr.currentEpoch = epoch
  pending : ∀ e : OutboxEntry, e.subID = sub → w.mgr.IsPending e → e.seq.epoch = epoch
  todo : ∀ e ∈ w.pc.todo sub, e.seq.epoch = epoch
  sent : ∀ event ∈ w.sent, event.subID = sub → event.emitSeq.epoch = epoch
  queued : ∀ ack ∈ w.ntf.ackCh, ack.subID = sub → ack.emitSeq.epoch = epoch
  accepted : ∀ ack ∈ w.accepted, ack.subID = sub → ack.emitSeq.epoch = epoch
  newest : Newest (positionsFor sub w.accepted) (w.mgr.lastAck.lookup sub)

section Rules

variable {epoch : EpochID} {sub : String} {w next : World} {action : Action}

theorem EpochHistory.init (bucketID : String) (proposer : Bool) :
    EpochHistory epoch sub (World.init bucketID epoch proposer) where
  current := rfl
  pending e _ h := by cases h
  todo e h := by cases h
  sent event h := by cases h
  queued ack h := by cases h
  accepted ack h := by cases h
  newest := rfl

theorem EpochHistory.newest_validates (h : EpochHistory epoch sub w) {ack : ClientAck}
    (hack : w.Validates next ack) :
    Newest (positionsFor sub next.accepted) (next.mgr.lastAck.lookup sub) := by
  rw [hack.1, hack.2]
  by_cases hsub : ack.subID = sub
  · subst hsub
    by_cases hyes : (w.mgr.validateAck ack.subID ack.emitSeq).1 = true
    · have hpositions : positionsFor ack.subID (w.accepted ++ [ack]) =
          positionsFor ack.subID w.accepted ++ [ack.emitSeq] := by
        simp [positionsFor]
      rw [if_pos hyes, hpositions]
      exact h.newest.validateAck
    · rw [if_neg hyes, Manager.lastAck_validateAck, if_neg fun hboth => hyes hboth.2]
      exact h.newest
  · have hpositions : positionsFor sub (if (w.mgr.validateAck ack.subID ack.emitSeq).1 then
        w.accepted ++ [ack] else w.accepted) = positionsFor sub w.accepted := by
      split
      · simp [positionsFor, hsub]
      · rfl
    rw [hpositions, Manager.lastAck_validateAck, if_neg fun hboth => hsub hboth.1.symm]
    exact h.newest

section

variable (h : EpochHistory epoch sub w) (hallowed : OneEpoch epoch sub w action)
  (hstep : w.step action = some next)
include h hallowed hstep

/-- Every step within the epoch leaves the acknowledgments of the subscription in it. -/
theorem EpochHistory.acks_step :
    (∀ ack ∈ next.ntf.ackCh, ack.subID = sub → ack.emitSeq.epoch = epoch) ∧
      ∀ ack ∈ next.accepted, ack.subID = sub → ack.emitSeq.epoch = epoch :=
  World.step_all_acks hstep (by rintro ack (rfl | rfl) <;> exact hallowed) h.queued h.accepted

theorem EpochHistory.step : EpochHistory epoch sub next where
  current := (World.step_currentEpoch hstep).trans h.current
  pending e hsub hpending := by
    rcases World.step_pending hstep hpending with hold | rfl
    · exact h.pending e hsub hold
    · exact hallowed hsub
  todo e he := by
    rcases World.mem_todo_step hstep sub he with hold | htaken
    · exact h.todo e hold
    · obtain ⟨hsub, hpending⟩ := (w.mgr.mem_pending_iff sub e).mp htaken
      exact h.pending e hsub hpending
  sent event hevent hsub := by
    rcases World.step_sent hstep with rfl | heq
    · cases hstep
      cases hevent
    · rw [heq] at hevent
      rcases List.mem_append.mp hevent with hold | hnew
      · exact h.sent event hold hsub
      · have hnews := w.deliveries_news action hnew
        rcases w.news_cases action sub with hquiet | ⟨_, e, rest, _, htodo, hnow⟩
        · exact absurd (by simpa using hsub) (List.filter_eq_nil_iff.mp hquiet event hnews)
        · rw [hnow] at hnews
          rw [List.mem_singleton.mp hnews]
          exact h.todo e (htodo ▸ List.mem_cons_self)
  queued := (h.acks_step hallowed hstep).1
  accepted := (h.acks_step hallowed hstep).2
  newest := by
    rcases World.step_acks hstep with ⟨hlast, hsame⟩ | ⟨_, _, hthrough⟩
    · rw [hlast, hsame]
      exact h.newest
    · exact h.newest_validates hthrough

end

end Rules

/-- In a run within one epoch, the position of an event that was sent to the client is answered
as invalid exactly when acknowledgments of the subscription were accepted and all of them are
for earlier entries. -/
theorem delivered_position_invalid_iff (bucketID : String) (epoch : EpochID) (proposer : Bool) (sub : String)
    {actions : List Action} {w : World}
    (hrun : Run World.step (OneEpoch epoch sub) (World.init bucketID epoch proposer) actions w)
    {event : DataEvent} (hevent : event ∈ eventsFor sub w.sent) :
    (w.mgr.reconnect ⟨sub, event.emitSeq⟩).status = .invalidSequence ↔
      (∃ ack ∈ w.accepted, ack.subID = sub) ∧
        ∀ ack ∈ w.accepted, ack.subID = sub → ack.emitSeq.index < event.index := by
  have h : EpochHistory epoch sub w :=
    hrun.invariant _ (fun _ _ _ hinv hallowed hstep => hinv.step hallowed hstep)
      (EpochHistory.init bucketID proposer)
  obtain ⟨hsent, hsub⟩ := List.mem_filter.mp hevent
  have hepoch := h.sent event hsent (of_decide_eq_true hsub)
  rw [Manager.reconnect_invalid_iff _ _ (by rw [hepoch, h.current])]
  have hnewest := h.newest
  constructor
  · rintro ⟨last, hlast, hbeyond⟩
    rw [hlast] at hnewest
    obtain ⟨newest, haccepted, hnewestsub, rfl⟩ := mem_positionsFor.mp hnewest.1
    refine ⟨⟨newest, haccepted, hnewestsub⟩, fun ack hack hacksub => ?_⟩
    have hle := hnewest.2 ack.emitSeq (mem_positionsFor.mpr ⟨ack, hack, hacksub, rfl⟩)
    rw [EmitSeq.position_le_iff_index (by
      rw [h.accepted ack hack hacksub, h.accepted newest haccepted hnewestsub])] at hle
    exact hle.trans_lt hbeyond
  · rintro ⟨⟨ack, hack, hacksub⟩, hall⟩
    cases hlast : w.mgr.lastAck.lookup sub with
    | none =>
      rw [hlast] at hnewest
      have hmem := mem_positionsFor.mpr ⟨ack, hack, hacksub, rfl⟩
      have hnone : positionsFor sub w.accepted = [] := hnewest
      rw [hnone] at hmem
      cases hmem
    | some last =>
      rw [hlast] at hnewest
      obtain ⟨newest, haccepted, hnewestsub, rfl⟩ := mem_positionsFor.mp hnewest.1
      exact ⟨_, rfl, hall newest haccepted hnewestsub⟩

/-- Two entries are sent and the first one is acknowledged. -/
def acknowledgedBehind : List Action :=
  .write "s" ⟨⟨"b", 7⟩, 1⟩ [1] :: .write "s" ⟨⟨"b", 7⟩, 2⟩ [2] :: .startTick ["s"] ::
    List.replicate 13 (.tick .delivered) ++ [.ack ⟨"s", ⟨⟨"b", 7⟩, 1⟩⟩, .takeAck]

/-- The client has both entries and only the first one counts as acknowledged. -/
theorem delivered_position_invalid_iff_behind :
    ∃ w : World, ⟨"s", ⟨⟨"b", 7⟩, 2⟩, [2]⟩ ∈ eventsFor "s" w.sent ∧
      ((w.mgr.reconnect ⟨"s", ⟨⟨"b", 7⟩, 2⟩⟩).status = .invalidSequence ↔
        (∃ ack ∈ w.accepted, ack.subID = "s") ∧
          ∀ ack ∈ w.accepted, ack.subID = "s" → ack.emitSeq.index < 2) := by
  obtain ⟨w, hrun, hw⟩ := exists_run_of_check World.step (OneEpoch ⟨"b", 7⟩ "s")
    (World.init "b" ⟨"b", 7⟩ true) acknowledgedBehind
    (fun w => decide (⟨"s", ⟨⟨"b", 7⟩, 2⟩, [2]⟩ ∈ eventsFor "s" w.sent)) (by decide)
  have hevent := of_decide_eq_true hw
  exact ⟨w, hevent, delivered_position_invalid_iff "b" ⟨"b", 7⟩ true "s" hrun hevent⟩

/-- A client that reconnects with the last event sent to it, while its acknowledgment of that
event has not arrived, is told that its position is invalid. -/
theorem delivered_position_rejected :
    ∃ w : World, Run World.step (OneEpoch ⟨"b", 7⟩ "s") (World.init "b" ⟨"b", 7⟩ true) acknowledgedBehind w ∧
      (eventsFor "s" w.sent).getLast? = some ⟨"s", ⟨⟨"b", 7⟩, 2⟩, [2]⟩ ∧
      (w.mgr.reconnect ⟨"s", ⟨⟨"b", 7⟩, 2⟩⟩).status = .invalidSequence :=
  exists_run (by decide)

end SevenDB.Emission
