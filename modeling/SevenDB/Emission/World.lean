import SevenDB.Common.GuardedRun
import SevenDB.Emission.Tick

/-!
# The emission system of one bucket

A manager, the notifier that serves it and the tick the notifier is in the middle of, with a
history of what happened: the entries written, the events that reached a client, the events
the current notifier sent successfully, the acknowledgments accepted and the resume requests
made. Every action is one atomic step of one thread, so runs are interleavings of the raft
apply pipeline, the notifier loop, clients and connection threads. Purges and replayed
acknowledgments are separate actions, since they come back through raft at some later time.
-/

namespace SevenDB.Emission

open SevenDB.Common

/-- The state of the system and its history. -/
structure World where
  mgr : Manager
  ntf : Notifier
  pc : TickPc
  written : List OutboxEntry
  reached : List DataEvent
  sent : List DataEvent
  accepted : List ClientAck
  resumes : List (String × UInt64)

/-- One step of one of the threads. -/
inductive Action
  | write (sub : String) (seq : EmitSeq) (delta : List UInt8)
  | purge (sub : String) (upTo : EmitSeq)
  | ack (ack : ClientAck)
  | takeAck
  | applyAck (ack : ClientAck)
  | startTick (subs : List String)
  | tick (outcome : SendOutcome)
  | setResumeFrom (sub : String) (nextCommitIdx : UInt64)
  | clearWatermarks (clientID : String)
  | replaceNotifier

/-- A bucket before anything was written to it. -/
def World.init (bucketID : String) (epoch : EpochID) (proposer : Bool) : World where
  mgr := (newManager bucketID).setCurrentEpoch epoch
  ntf := newNotifier proposer
  pc := .idle
  written := []
  reached := []
  sent := []
  accepted := []
  resumes := []

/-- Run one section of the tick in progress. -/
def World.tickOnce (w : World) (outcome : SendOutcome) : World :=
  let effect := w.ntf.tickStep w.mgr outcome w.pc
  { w with
    ntf := effect.notifier
    pc := effect.pc
    reached := w.reached ++ effect.reached
    sent := w.sent ++ effect.sent }

/-- Take the first queued acknowledgment. -/
def World.processAck (w : World) (ack : ClientAck) (rest : List ClientAck) : World :=
  let result := Notifier.processAck { w.ntf with ackCh := rest } w.mgr ack
  { w with
    ntf := result.2.1
    mgr := result.2.2
    accepted := if result.1 then w.accepted ++ [ack] else w.accepted }

/-- Apply an acknowledgment that was replicated as a raft record. -/
def World.applyAck (w : World) (ack : ClientAck) : World :=
  let verdict := w.mgr.validateAck ack.subID ack.emitSeq
  { w with
    mgr := verdict.2
    accepted := if verdict.1 then w.accepted ++ [ack] else w.accepted }

/-- The next state, or nothing where the action is not possible. The notifier loop takes
acknowledgments and starts ticks only between two ticks, and a tick goes through the
subscriptions with pending entries in an arbitrary order. -/
def World.step (w : World) : Action → Option World
  | .write sub seq delta =>
    some { w with
      mgr := w.mgr.applyOutboxWrite sub seq delta
      written := w.written ++ [⟨sub, seq, delta⟩] }
  | .purge sub upTo => some { w with mgr := w.mgr.applyOutboxPurge sub upTo }
  | .ack ack => (w.ntf.ack ack).map fun ntf => { w with ntf := ntf }
  | .takeAck =>
    match w.pc, w.ntf.ackCh with
    | .idle, ack :: rest => some (w.processAck ack rest)
    | _, _ => none
  | .applyAck ack => some (w.applyAck ack)
  | .startTick subs =>
    if w.pc = .idle ∧ subs.Nodup ∧ subs.toFinset = w.mgr.subsWithPending then
      some { w with pc := .scan subs }
    else none
  | .tick outcome => if w.pc = .idle then none else some (w.tickOnce outcome)
  | .setResumeFrom sub nextCommitIdx =>
    some { w with
      ntf := w.ntf.setResumeFrom sub nextCommitIdx
      resumes := w.resumes ++ [(sub, nextCommitIdx)] }
  | .clearWatermarks clientID => some { w with ntf := w.ntf.clearWatermarksForClient clientID }
  | .replaceNotifier => some { w with ntf := newNotifier w.ntf.proposer, pc := .idle, sent := [] }

section AckEffects

variable (w : World) (ack : ClientAck) (rest : List ClientAck)

@[simp] theorem World.ackCh_processAck : (w.processAck ack rest).ntf.ackCh = rest :=
  Notifier.ackCh_processAck ..

@[simp] theorem World.resumeIdx_processAck (sub : String) :
    (w.processAck ack rest).ntf.resumeIdx sub = w.ntf.resumeIdx sub :=
  congrArg (fun table => (Finmap.lookup sub table).getD 0) (Notifier.resumeFrom_processAck ..)

/-- Taking an acknowledgment moves at most the watermark of its subscription, and only when
it is accepted. -/
theorem World.lastSent_processAck (sub : String) :
    (w.processAck ack rest).ntf.lastSent sub = w.ntf.lastSent sub ∨
      sub = ack.subID ∧ (w.processAck ack rest).ntf.lastSent sub = ack.emitSeq ∧
        ack ∈ (w.processAck ack rest).accepted := by
  refine (Notifier.lastSent_processAck { w.ntf with ackCh := rest } w.mgr ack sub).imp_right ?_
  rintro ⟨hsub, hlast, haccepted⟩
  refine ⟨hsub, hlast, ?_⟩
  simp only [World.processAck, haccepted, if_true]
  exact List.mem_append_right _ (List.mem_singleton_self ack)

theorem World.lastSent_le_processAck (sub : String) :
    (w.ntf.lastSent sub).position ≤ ((w.processAck ack rest).ntf.lastSent sub).position :=
  Notifier.lastSent_le_processAck { w.ntf with ackCh := rest } w.mgr ack sub

theorem World.isPending_processAck {e : OutboxEntry} (h : (w.processAck ack rest).mgr.IsPending e) :
    w.mgr.IsPending e := by
  change Manager.IsPending (Notifier.processAck { w.ntf with ackCh := rest } w.mgr ack).2.2 e at h
  rcases Notifier.manager_processAck { w.ntf with ackCh := rest } w.mgr ack with heq | heq
  · rw [heq, Manager.isPending_validateAck] at h
    exact h
  · rw [heq, Manager.isPending_applyOutboxPurge, Manager.isPending_validateAck] at h
    exact h.1

end AckEffects

/-- The events that reach clients in a step. -/
def World.news (w : World) : Action → List DataEvent
  | .tick outcome => (w.ntf.tickStep w.mgr outcome w.pc).reached
  | _ => []

/-- The events sent successfully in a step. -/
def World.deliveries (w : World) : Action → List DataEvent
  | .tick outcome => (w.ntf.tickStep w.mgr outcome w.pc).sent
  | _ => []

section Inversion

variable {w next : World}

/-- What each action does, and what was the case before it: an acknowledgment joins the end of the queue and is
taken from its front, the latter between two ticks; there a tick starts with all subscriptions that have pending
entries, and its sections are executed while it is running. -/
inductive World.Stepped (w : World) : Action → World → Prop
  | write (sub : String) (seq : EmitSeq) (delta : List UInt8) :
      Stepped w (.write sub seq delta)
        { w with mgr := w.mgr.applyOutboxWrite sub seq delta, written := w.written ++ [⟨sub, seq, delta⟩] }
  | purge (sub : String) (upTo : EmitSeq) :
      Stepped w (.purge sub upTo) { w with mgr := w.mgr.applyOutboxPurge sub upTo }
  | ack (ack : ClientAck) :
      Stepped w (.ack ack) { w with ntf := { w.ntf with ackCh := w.ntf.ackCh ++ [ack] } }
  | takeAck (ack : ClientAck) (rest : List ClientAck) (hidle : w.pc = .idle) (hqueue : w.ntf.ackCh = ack :: rest) :
      Stepped w .takeAck (w.processAck ack rest)
  | applyAck (ack : ClientAck) : Stepped w (.applyAck ack) (w.applyAck ack)
  | startTick (subs : List String) (hidle : w.pc = .idle) (hsubs : subs.toFinset = w.mgr.subsWithPending) :
      Stepped w (.startTick subs) { w with pc := .scan subs }
  | tick (outcome : SendOutcome) (hbusy : w.pc ≠ .idle) : Stepped w (.tick outcome) (w.tickOnce outcome)
  | setResumeFrom (sub : String) (nextCommitIdx : UInt64) :
      Stepped w (.setResumeFrom sub nextCommitIdx)
        { w with ntf := w.ntf.setResumeFrom sub nextCommitIdx, resumes := w.resumes ++ [(sub, nextCommitIdx)] }
  | clearWatermarks (clientID : String) :
      Stepped w (.clearWatermarks clientID) { w with ntf := w.ntf.clearWatermarksForClient clientID }
  | replaceNotifier :
      Stepped w .replaceNotifier { w with ntf := newNotifier w.ntf.proposer, pc := .idle, sent := [] }

theorem World.stepped {action : Action} (h : w.step action = some next) : w.Stepped action next := by
  cases action with
  | ack ack =>
    simp only [World.step, Notifier.ack, Option.map_eq_some_iff] at h
    obtain ⟨ntf, hroom, rfl⟩ := h
    obtain ⟨_, rfl⟩ := Option.ite_some_none_eq_some.mp hroom
    exact .ack ack
  | takeAck =>
    simp only [World.step] at h
    split at h
    · next ack rest hidle hqueue =>
      cases h
      exact .takeAck ack rest hidle hqueue
    · cases h
  | startTick subs =>
    obtain ⟨⟨hidle, _, hsubs⟩, rfl⟩ := Option.ite_some_none_eq_some.mp h
    exact .startTick subs hidle hsubs
  | tick outcome =>
    obtain ⟨hbusy, hnext⟩ := Option.ite_none_left_eq_some.mp h
    cases hnext
    exact .tick outcome hbusy
  | write | purge | applyAck | setResumeFrom | clearWatermarks | replaceNotifier =>
    cases h
    constructor

/-- Every step extends the stream of events that reached clients by its news. -/
theorem World.step_reached {action : Action} (h : w.step action = some next) :
    next.reached = w.reached ++ w.news action := by
  cases World.stepped h with
  | tick => rfl
  | _ => simp [World.news, World.processAck, World.applyAck]

end Inversion

/-- The entries of a subscription among those listed. -/
def entriesFor (sub : String) (entries : List OutboxEntry) : List OutboxEntry :=
  entries.filter (fun entry => entry.subID = sub)

/-- The events of a subscription among those listed. -/
def eventsFor (sub : String) (events : List DataEvent) : List DataEvent :=
  events.filter (fun event => event.subID = sub)

@[simp] theorem mem_entriesFor {sub : String} {entries : List OutboxEntry} {entry : OutboxEntry} :
    entry ∈ entriesFor sub entries ↔ entry ∈ entries ∧ entry.subID = sub := by
  simp [entriesFor]

theorem entriesFor_append_self (entries : List OutboxEntry) (entry : OutboxEntry) :
    entriesFor entry.subID (entries ++ [entry]) = entriesFor entry.subID entries ++ [entry] := by
  simp [entriesFor]

theorem entriesFor_append_other {sub : String} (entries : List OutboxEntry) {entry : OutboxEntry}
    (hother : entry.subID ≠ sub) : entriesFor sub (entries ++ [entry]) = entriesFor sub entries := by
  simp [entriesFor, hother]

/-- Listing the events of a subscription distributes over concatenation. -/
@[simp] theorem eventsFor_append (sub : String) (first second : List DataEvent) :
    eventsFor sub (first ++ second) = eventsFor sub first ++ eventsFor sub second :=
  List.filter_append ..

end SevenDB.Emission
