import SevenDB.Common.RisingStream
import SevenDB.Emission.Cursor

/-!
# Effective-once delivery

A client that discards every event whose commit index is not above the last one it processed
sees the entries of its subscription exactly once and in order, although the notifier may
send entries again, sends may fail after they reached the client, acknowledgments may be lost
or repeated and the notifier may be replaced. The cursor follows the position of the client.
-/

namespace SevenDB.Emission

open SevenDB.Common

/-- The events a discarding client has processed of those that reached it. -/
def processed (sub : String) (reached : List DataEvent) : List DataEvent :=
  rising DataEvent.index (eventsFor sub reached)

/-- The commit index of the last event processed, zero before the first one. -/
def clientPosition (sub : String) (reached : List DataEvent) : ℕ :=
  topRank DataEvent.index (processed sub reached)

/-- The environment of one subscription in one epoch: entries are written with strictly
increasing indices, a client acknowledges what it processed, only accepted acknowledgments are
purged, and no resume point is set. Everything else may happen at any time. -/
def DeliveryAllowed (epoch : EpochID) (sub : String) (w : World) : Action → Prop
  | .write target seq _ => target = sub →
      seq.epoch = epoch ∧ 1 ≤ seq.index ∧ seq.index < 2 ^ 63 ∧
        ∀ e ∈ entriesFor sub w.written, e.index < seq.index
  | .purge target upTo => target = sub → ⟨sub, upTo⟩ ∈ w.accepted
  | .ack ack => ack.subID = sub → ∃ event ∈ processed sub w.reached, event.emitSeq = ack.emitSeq
  | .applyAck ack => ack.subID = sub → ∃ event ∈ processed sub w.reached, event.emitSeq = ack.emitSeq
  | .setResumeFrom target _ => target ≠ sub
  | _ => True

instance (epoch : EpochID) (sub : String) (w : World) (action : Action) :
    Decidable (DeliveryAllowed epoch sub w action) := by
  rcases action with _ | _ | _ | _ | _ | _ | _ | _ | _ | _ <;> dsimp only [DeliveryAllowed] <;> infer_instance

/-- The actions that can happen while one tick runs to its end, with all sends to the
subscription successful and nothing written for it. -/
def QuietTickAllowed (epoch : EpochID) (sub : String) (w : World) (action : Action) : Prop :=
  DeliveryAllowed epoch sub w action ∧
    match action with
    | .write target _ _ => target ≠ sub
    | .tick outcome => w.pc.sendingTo = some sub → outcome = .delivered
    | .startTick _ => False
    | .replaceNotifier => False
    | _ => True

instance (epoch : EpochID) (sub : String) (w : World) (action : Action) :
    Decidable (QuietTickAllowed epoch sub w action) := by
  rcases action with _ | _ | _ | _ | _ | _ | _ | _ | _ | _ <;> dsimp only [QuietTickAllowed] <;> infer_instance

/-- The client has processed the entries up to its position, and the cursor stands there. -/
structure Delivery (epoch : EpochID) (sub : String) (w : World) : Prop where
  cursor : Cursor epoch sub (clientPosition sub w.reached) w
  positive : ∀ e ∈ entriesFor sub w.written, 0 < e.index
  upTo : processed sub w.reached =
    ((entriesFor sub w.written).filter fun e => e.index ≤ clientPosition sub w.reached).map
      fun e => e.toEvent sub

section Rules

variable {epoch : EpochID} {sub : String} {w next : World} {action : Action}

theorem Delivery.init (bucketID : String) (current : EpochID) (proposer : Bool) :
    Delivery epoch sub (World.init bucketID current proposer) where
  cursor := Cursor.init bucketID current proposer
  positive e he := by cases he
  upTo := rfl

section

variable (h : Delivery epoch sub w)
include h

/-- Every processed event carries an entry that was written and is within the position. -/
theorem Delivery.processed_entry {event : DataEvent}
    (hevent : event ∈ processed sub w.reached) :
    ∃ e ∈ entriesFor sub w.written, e.index ≤ clientPosition sub w.reached ∧ event = e.toEvent sub := by
  rw [h.upTo] at hevent
  obtain ⟨e, he, rfl⟩ := List.mem_map.mp hevent
  obtain ⟨hlog, hle⟩ := List.mem_filter.mp he
  exact ⟨e, hlog, of_decide_eq_true hle, rfl⟩

theorem Delivery.position_lt {bound : ℕ} (hpos : 0 < bound)
    (hbound : ∀ e ∈ entriesFor sub w.written, e.index < bound) :
    clientPosition sub w.reached < bound := by
  unfold clientPosition topRank
  cases hlast : (processed sub w.reached).getLast? with
  | none => exact hpos
  | some last =>
    obtain ⟨e, he, _, rfl⟩ := h.processed_entry (List.mem_of_getLast? hlast)
    exact hbound e he

theorem Delivery.accountAllowed (hallowed : DeliveryAllowed epoch sub w action) :
    AccountAllowed epoch sub (clientPosition sub w.reached) w action := by
  have hack (ack : ClientAck) (hprocessed : ack.subID = sub →
      ∃ event ∈ processed sub w.reached, event.emitSeq = ack.emitSeq) (hsub : ack.subID = sub) :
      ack.emitSeq.Behind epoch (clientPosition sub w.reached) := by
    obtain ⟨event, hevent, heq⟩ := hprocessed hsub
    obtain ⟨e, he, hle, rfl⟩ := h.processed_entry hevent
    rw [← heq]
    exact Or.inr ⟨h.cursor.ledger.inEpoch e he, hle⟩
  cases action with
  | write target seq delta =>
    intro hsub
    obtain ⟨hepoch, _, hbound, hnext⟩ := hallowed hsub
    exact ⟨hepoch, hbound, hnext⟩
  | ack ack | applyAck ack => exact hack ack hallowed
  | purge => exact hallowed
  | _ => trivial

theorem Delivery.step_quiet (hallowed : DeliveryAllowed epoch sub w action)
    (hstep : w.step action = some next) (hquiet : eventsFor sub (w.news action) = []) :
    Delivery epoch sub next := by
  have hprocessed : processed sub next.reached = processed sub w.reached := by
    unfold processed
    rw [World.step_reached hstep, eventsFor_append, hquiet, List.append_nil]
  have hposition : clientPosition sub next.reached = clientPosition sub w.reached :=
    congrArg (topRank DataEvent.index) hprocessed
  have hcursor : Cursor epoch sub (clientPosition sub w.reached) next := by
    refine h.cursor.step (h.accountAllowed hallowed) ?_ hstep le_rfl ?_
    · rintro nextCommitIdx rfl
      exact hallowed rfl
    intro event hevent hsub
    exact absurd (decide_eq_true hsub) (List.filter_eq_nil_iff.mp hquiet event hevent)
  rcases World.step_written hstep sub with hsame | ⟨seq, delta, rfl, hnew⟩
  · refine ⟨hposition ▸ hcursor, hsame ▸ h.positive, ?_⟩
    rw [hprocessed, hposition, hsame]
    exact h.upTo
  · obtain ⟨_, hpos, _, hnext⟩ := hallowed rfl
    refine ⟨hposition ▸ hcursor, ?_, ?_⟩
    · intro e he
      rw [hnew, List.mem_append, List.mem_singleton] at he
      rcases he with hold | rfl
      · exact h.positive e hold
      · exact hpos
    · have habove := h.position_lt hpos hnext
      have hout : ¬ (⟨sub, seq, delta⟩ : OutboxEntry).index ≤ clientPosition sub w.reached :=
        not_le.mpr habove
      rw [hprocessed, hposition, hnew, List.filter_append, List.filter_singleton, decide_eq_false hout,
        cond_false, List.append_nil]
      exact h.upTo

/-- A step that sends the client an event moves it to the next entry, or leaves it where it
was when the event is an old one. -/
theorem Delivery.step_sends {outcome : SendOutcome} {e : OutboxEntry}
    {rest : List OutboxEntry} (hstep : w.step (.tick outcome) = some next)
    (htodo : w.pc.todo sub = e :: rest) (hnews : w.news (.tick outcome) = [e.toEvent sub]) :
    Delivery epoch sub next := by
  have hqueue := h.cursor.queue
  rw [htodo] at hqueue
  have he := hqueue.fromLog e List.mem_cons_self
  have hstream : processed sub next.reached =
      keepRising DataEvent.index (processed sub w.reached) (e.toEvent sub) := by
    unfold processed
    rw [World.step_reached hstep, hnews, eventsFor_append, ← rising_append_single]
    simp [eventsFor, OutboxEntry.toEvent]
  have hwritten : next.written = w.written := by
    cases World.stepped hstep
    rfl
  by_cases hnew : clientPosition sub w.reached < e.index
  · have hkept : processed sub next.reached = processed sub w.reached ++ [e.toEvent sub] := by
      rw [hstream]
      exact keepRising_of_lt DataEvent.index hnew
    have hposition : clientPosition sub next.reached = e.index := by
      rw [clientPosition, hkept, topRank_append_single, OutboxEntry.toEvent_index]
    refine ⟨?_, hwritten ▸ h.positive, ?_⟩
    · rw [hposition]
      refine h.cursor.tick hstep hnew.le ?_
      intro event hevent _
      rw [hnews, List.mem_singleton] at hevent
      rw [hevent]
      exact le_rfl
    · rw [hkept, hposition, hwritten, h.upTo,
        filter_le_next h.cursor.ledger.increasing he hnew fun x hx hlt => hqueue.before_head hx hlt,
        List.map_append, List.map_singleton]
  · have hold : processed sub next.reached = processed sub w.reached := by
      rw [hstream]
      exact keepRising_of_le DataEvent.index (h.positive e he) (not_lt.mp hnew)
    have hposition : clientPosition sub next.reached = clientPosition sub w.reached :=
      congrArg (topRank DataEvent.index) hold
    refine ⟨?_, hwritten ▸ h.positive, ?_⟩
    · rw [hposition]
      refine h.cursor.tick hstep le_rfl ?_
      intro event hevent _
      rw [hnews, List.mem_singleton] at hevent
      rw [hevent]
      exact not_lt.mp hnew
    · rw [hold, hposition, hwritten]
      exact h.upTo

/-- Every allowed step keeps the client on the prefix it has processed. -/
theorem Delivery.step (hallowed : DeliveryAllowed epoch sub w action)
    (hstep : w.step action = some next) : Delivery epoch sub next := by
  rcases w.news_cases action sub with hquiet | ⟨outcome, e, rest, rfl, htodo, hnews⟩
  · exact h.step_quiet hallowed hstep hquiet
  · exact h.step_sends hstep htodo hnews

end

theorem clientPosition_step (sub : String) (hstep : w.step action = some next) :
    clientPosition sub w.reached ≤ clientPosition sub next.reached := by
  unfold clientPosition processed
  rw [World.step_reached hstep, eventsFor_append]
  exact topRank_rising_append DataEvent.index _ _

/-- The entries above the position of the client are all ahead of the running tick. -/
def AllAhead (sub : String) (w : World) : Prop :=
  ∀ e ∈ entriesFor sub w.written, clientPosition sub w.reached < e.index → w.pc.Ahead sub e

theorem Delivery.startTick (h : Delivery epoch sub w) {subs : List String}
    (hstep : w.step (.startTick subs) = some next) : AllAhead sub next := by
  intro e he habove
  have hsame : next.written = w.written ∧ next.reached = w.reached := by
    cases World.stepped hstep
    exact ⟨rfl, rfl⟩
  rw [hsame.1] at he
  rw [hsame.2] at habove
  exact h.cursor.ahead_startTick hstep he habove

theorem QuietTickAllowed.successful (h : QuietTickAllowed epoch sub w action) :
    SuccessfulTick sub w action := by
  cases action with
  | tick | startTick | replaceNotifier => exact h.2
  | _ => trivial

/-- While sends succeed and nothing is written, the entries above the position stay ahead. -/
theorem AllAhead.step (hahead : AllAhead sub w) (h : Delivery epoch sub w)
    (hallowed : QuietTickAllowed epoch sub w action) (hstep : w.step action = some next) :
    AllAhead sub next := by
  have hposition := clientPosition_step sub hstep
  have hwritten : entriesFor sub next.written = entriesFor sub w.written := by
    rcases World.step_written hstep sub with hsame | ⟨seq, delta, rfl, _⟩
    · exact hsame
    · exact absurd rfl hallowed.2
  intro e he habove
  rw [hwritten] at he
  have hbelow := lt_of_le_of_lt hposition habove
  rcases h.cursor.ahead_step hallowed.successful hstep he hbelow (hahead e he hbelow) with hstill | hsent
  · exact hstill
  · have hreached : e.toEvent sub ∈ eventsFor sub next.reached := by
      rw [World.step_reached hstep, eventsFor_append]
      exact List.mem_append_right _ (List.mem_filter.mpr
        ⟨w.deliveries_news _ hsent, by simp [OutboxEntry.toEvent]⟩)
    have hle : e.index ≤ clientPosition sub next.reached :=
      rank_le_topRank_rising DataEvent.index hreached
    exact absurd habove (not_lt.mpr hle)

/-- Once no entry is above the position, the client has processed everything. -/
theorem Delivery.complete (h : Delivery epoch sub w)
    (hnone : ∀ e ∈ entriesFor sub w.written, ¬ clientPosition sub w.reached < e.index) :
    processed sub w.reached = (entriesFor sub w.written).map fun e => e.toEvent sub := by
  have hall : (entriesFor sub w.written).filter (fun e => e.index ≤ clientPosition sub w.reached) =
      entriesFor sub w.written :=
    List.filter_eq_self.mpr fun e he => decide_eq_true (not_lt.mp (hnone e he))
  rw [h.upTo, hall]

end Rules

/-- At every moment the client has processed a gap-free, ordered and duplicate-free prefix of
what was written, and after a tick with successful sends and no write it has processed it all. -/
theorem processed_effectively_once (bucketID : String) (epoch : EpochID) (proposer : Bool) (sub : String)
    {actions : List Action} {w : World}
    (hrun : Run World.step (DeliveryAllowed epoch sub) (World.init bucketID epoch proposer) actions w) :
    (processed sub w.reached <+: (entriesFor sub w.written).map (fun e => e.toEvent sub) ∧
      (processed sub w.reached).map DataEvent.delta <+: (entriesFor sub w.written).map OutboxEntry.delta ∧
      (processed sub w.reached).Pairwise fun first second => first.index < second.index) ∧
    ∀ subs started quietActions finish, w.step (.startTick subs) = some started →
      Run World.step (QuietTickAllowed epoch sub) started quietActions finish → finish.pc = .idle →
      processed sub finish.reached = (entriesFor sub finish.written).map fun e => e.toEvent sub := by
  have h : Delivery epoch sub w :=
    hrun.invariant (Delivery epoch sub) (fun _ _ _ hinv hallowed hstep => hinv.step hallowed hstep)
      (Delivery.init bucketID epoch proposer)
  have hincreasing := h.cursor.ledger.increasing
  have hinitial : processed sub w.reached <+: (entriesFor sub w.written).map (fun e => e.toEvent sub) := by
    rw [h.upTo]
    exact (filter_le_isPrefix (hincreasing.imp le_of_lt) _).map _
  refine ⟨⟨hinitial, ?_, ?_⟩, ?_⟩
  · have hdeltas := hinitial.map DataEvent.delta
    rw [List.map_map] at hdeltas
    exact hdeltas
  · rw [h.upTo, List.pairwise_map]
    exact hincreasing.sublist List.filter_sublist
  · intro subs started quietActions finish hstart hquiet hidle
    have hany : DeliveryAllowed epoch sub w (.startTick subs) := trivial
    have hstarted : Delivery epoch sub started := h.step hany hstart
    have hfinish : Delivery epoch sub finish ∧ AllAhead sub finish := by
      refine hquiet.invariant (fun state => Delivery epoch sub state ∧ AllAhead sub state) ?_ ?_
      · intro state action after hinv hallowed hstep
        exact ⟨hinv.1.step hallowed.1 hstep, hinv.2.step hinv.1 hallowed hstep⟩
      · exact ⟨hstarted, h.startTick hstart⟩
    refine hfinish.1.complete fun e he habove => ?_
    have hahead := hfinish.2 e he habove
    rw [hidle] at hahead
    rcases hahead with hleft | htodo
    · cases hleft
    · cases htodo

/-- A send fails after reaching the client, and the next tick sends the first entry again while
the client acknowledges it: the client has processed one entry, and then both. -/
theorem processed_effectively_once_resend :
    ∃ w started finish : World,
      w.step (.startTick ["s"]) = some started ∧ finish.pc = .idle ∧
      (processed "s" w.reached).map DataEvent.delta = [[1]] ∧
      (processed "s" w.reached).map DataEvent.delta <+: (entriesFor "s" w.written).map OutboxEntry.delta ∧
      (finish.reached.map DataEvent.index = [1, 1, 3]) ∧
      processed "s" finish.reached = (entriesFor "s" finish.written).map fun e => e.toEvent "s" := by
  obtain ⟨w, started, finish, hrun, hone, hstart, hfinish, hend⟩ :=
    exists_runs_of_check World.step (DeliveryAllowed ⟨"b", 7⟩ "s") (QuietTickAllowed ⟨"b", 7⟩ "s")
      (World.init "b" ⟨"b", 7⟩ true)
      [.write "s" ⟨⟨"b", 7⟩, 1⟩ [1], .write "s" ⟨⟨"b", 7⟩, 3⟩ [2], .startTick ["s"], .tick .delivered,
        .tick .delivered, .tick .delivered, .tick .failedDelivered, .tick .delivered] (.startTick ["s"])
      (.ack ⟨"s", ⟨⟨"b", 7⟩, 1⟩⟩ :: List.replicate 13 (.tick .delivered))
      (fun w => decide ((processed "s" w.reached).map DataEvent.delta = [[1]]))
      (fun finish => decide (finish.pc = TickPc.idle ∧ finish.reached.map DataEvent.index = [1, 1, 3]))
      (by decide)
  obtain ⟨hidle, hreached⟩ := of_decide_eq_true hend
  have hresult := processed_effectively_once "b" ⟨"b", 7⟩ true "s" hrun
  exact ⟨w, started, finish, hstart, hidle, of_decide_eq_true hone, hresult.1.2.1, hreached,
    hresult.2 _ started _ finish hstart hfinish hidle⟩

end SevenDB.Emission
