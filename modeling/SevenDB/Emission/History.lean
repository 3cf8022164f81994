import SevenDB.Emission.World

/-!
# How one step extends the histories

What a step adds to the entries written, the events sent, the acknowledgments and the requests
for resume points, and what it puts out for one subscription. The actions are gone through once
here, and the invariants of the emission system are derived from these facts.
-/

namespace SevenDB.Emission

section Histories

variable {w next : World} {action : Action}

section

variable (h : w.step action = some next)
include h

/-- A step either writes an entry of the subscription or leaves its list alone. -/
theorem World.step_written (sub : String) :
    entriesFor sub next.written = entriesFor sub w.written ∨
      ∃ seq delta, action = .write sub seq delta ∧
        entriesFor sub next.written = entriesFor sub w.written ++ [⟨sub, seq, delta⟩] := by
  cases World.stepped h with
  | write target seq delta =>
    by_cases hsub : target = sub
    · subst hsub
      exact Or.inr ⟨seq, delta, rfl, entriesFor_append_self w.written ⟨target, seq, delta⟩⟩
    · exact Or.inl (entriesFor_append_other w.written hsub)
  | _ => exact Or.inl rfl

theorem World.mem_written_step {sub : String} {e : OutboxEntry}
    (he : e ∈ entriesFor sub w.written) : e ∈ entriesFor sub next.written := by
  rcases World.step_written h sub with hsame | ⟨seq, delta, _, hnew⟩
  · exact hsame ▸ he
  · exact hnew ▸ List.mem_append_left _ he

/-- What is pending after a step was pending before or has just been written. -/
theorem World.step_pending {e : OutboxEntry} (hpending : next.mgr.IsPending e) :
    w.mgr.IsPending e ∨ action = .write e.subID e.seq e.delta := by
  cases World.stepped h with
  | write target seq delta =>
    rw [Manager.isPending_applyOutboxWrite] at hpending
    split at hpending
    · subst hpending
      exact Or.inr rfl
    · exact Or.inl hpending
  | purge => exact Or.inl ((Manager.isPending_applyOutboxPurge ..).mp hpending).1
  | takeAck ack rest => exact Or.inl (w.isPending_processAck ack rest hpending)
  | applyAck => exact Or.inl ((Manager.isPending_validateAck ..).mp hpending)
  | _ => exact Or.inl hpending

theorem World.step_currentEpoch :
    next.mgr.currentEpoch = w.mgr.currentEpoch := by
  cases World.stepped h with
  | takeAck ack rest =>
    change (Notifier.processAck { w.ntf with ackCh := rest } w.mgr ack).2.2.currentEpoch = _
    rcases Notifier.manager_processAck { w.ntf with ackCh := rest } w.mgr ack with heq | heq
    · rw [heq, Manager.currentEpoch_validateAck]
    · rw [heq]
      exact w.mgr.currentEpoch_validateAck ack.subID ack.emitSeq
  | applyAck ack => exact w.mgr.currentEpoch_validateAck ack.subID ack.emitSeq
  | _ => rfl

theorem World.step_sent :
    action = .replaceNotifier ∨ next.sent = w.sent ++ w.deliveries action := by
  cases World.stepped h with
  | replaceNotifier => exact Or.inl rfl
  | tick => exact Or.inr rfl
  | _ => exact Or.inr (List.append_nil _).symm

end

/-- The history after one more acknowledgment went through the manager. -/
def World.Validates (w next : World) (ack : ClientAck) : Prop :=
  next.mgr.lastAck = (w.mgr.validateAck ack.subID ack.emitSeq).2.lastAck ∧
    next.accepted =
      if (w.mgr.validateAck ack.subID ack.emitSeq).1 then w.accepted ++ [ack] else w.accepted

/-- A step leaves the acknowledgments alone or puts one of them through the manager, which was
replicated or queued. -/
theorem World.step_acks (h : w.step action = some next) :
    next.mgr.lastAck = w.mgr.lastAck ∧ next.accepted = w.accepted ∨
      ∃ ack, (action = .applyAck ack ∨ ack ∈ w.ntf.ackCh) ∧ w.Validates next ack := by
  cases World.stepped h with
  | takeAck ack rest _ hqueue =>
    refine Or.inr ⟨ack, Or.inr (hqueue ▸ List.mem_cons_self), Notifier.lastAck_processAck .., ?_⟩
    simp only [World.processAck, Notifier.accepted_processAck]
  | applyAck ack => exact Or.inr ⟨ack, Or.inl rfl, rfl, rfl⟩
  | _ => exact Or.inl ⟨rfl, rfl⟩

/-- An acknowledgment accepted in a step is the one that went through. -/
theorem World.Validates.mem_accepted {ack other : ClientAck} (h : w.Validates next ack)
    (hother : other ∈ next.accepted) : other ∈ w.accepted ∨ other = ack := by
  rw [h.2] at hother
  split at hother
  · exact (List.mem_append.mp hother).imp_right List.mem_singleton.mp
  · exact Or.inl hother

theorem World.mem_accepted_step (h : w.step action = some next) {ack : ClientAck}
    (hack : ack ∈ w.accepted) : ack ∈ next.accepted := by
  rcases World.step_acks h with ⟨_, hsame⟩ | ⟨taken, _, _, haccepted⟩
  · exact hsame ▸ hack
  · rw [haccepted]
    split
    · exact List.mem_append_left _ hack
    · exact hack

/-- What is queued after a step was queued before or has just come in. -/
theorem World.step_queued (h : w.step action = some next)
    {ack : ClientAck} (hack : ack ∈ next.ntf.ackCh) : ack ∈ w.ntf.ackCh ∨ action = .ack ack := by
  cases World.stepped h with
  | ack new =>
    refine (List.mem_append.mp hack).imp_right fun hnew => ?_
    rw [List.mem_singleton.mp hnew]
  | takeAck first rest _ hqueue =>
    rw [World.ackCh_processAck] at hack
    exact Or.inl (hqueue ▸ List.mem_cons_of_mem first hack)
  | tick outcome =>
    change ack ∈ (w.ntf.tickStep w.mgr outcome w.pc).notifier.ackCh at hack
    rw [(w.ntf.tickStep_move w.mgr outcome w.pc).ackCh_eq] at hack
    exact Or.inl hack
  | setResumeFrom =>
    simp only [Notifier.setResumeFrom] at hack
    split at hack <;> exact Or.inl hack
  | replaceNotifier => cases hack
  | _ => exact Or.inl hack

/-- What holds of every acknowledgment that is queued or accepted, and of the one that comes in or is
replicated, holds of every one that is queued or accepted after the step. -/
theorem World.step_all_acks {P : ClientAck → Prop} (h : w.step action = some next)
    (hoffered : ∀ ack, action = .ack ack ∨ action = .applyAck ack → P ack)
    (hqueued : ∀ ack ∈ w.ntf.ackCh, P ack) (haccepted : ∀ ack ∈ w.accepted, P ack) :
    (∀ ack ∈ next.ntf.ackCh, P ack) ∧ ∀ ack ∈ next.accepted, P ack := by
  constructor
  · intro ack hack
    rcases World.step_queued h hack with hold | hnew
    · exact hqueued ack hold
    · exact hoffered ack (Or.inl hnew)
  · intro ack hack
    rcases World.step_acks h with ⟨_, hsame⟩ | ⟨taken, hfrom, hthrough⟩
    · exact haccepted ack (hsame ▸ hack)
    · rcases hthrough.mem_accepted hack with hold | rfl
      · exact haccepted ack hold
      · rcases hfrom with hnew | hold
        · exact hoffered ack (Or.inr hnew)
        · exact hqueued ack hold

theorem World.mem_resumes_step (h : w.step action = some next) {request : String × UInt64}
    (hrequest : request ∈ w.resumes) : request ∈ next.resumes := by
  cases World.stepped h with
  | setResumeFrom => exact List.mem_append_left _ hrequest
  | _ => exact hrequest

end Histories

/-- A step either sends an entry of the subscription or puts out nothing for it. -/
theorem World.sends_or_quiet (w : World) (action : Action) (sub : String) :
    (∃ outcome e entries subs lastSent resumeIdx, action = .tick outcome ∧
      w.pc = .sending sub e entries subs lastSent resumeIdx) ∨
      eventsFor sub (w.news action) = [] := by
  by_cases hnone : ∀ event ∈ w.news action, event.subID ≠ sub
  · refine Or.inr (List.filter_eq_nil_iff.mpr ?_)
    simpa using hnone
  · push Not at hnone
    obtain ⟨event, hevent, rfl⟩ := hnone
    refine Or.inl ?_
    cases action with
    | tick outcome =>
      have hmove := w.ntf.tickStep_move w.mgr outcome w.pc
      obtain ⟨_, e, entries, subs, lastSent, resumeIdx, hpc, _⟩ := hmove.reached_sending hevent
      exact ⟨outcome, e, entries, subs, lastSent, resumeIdx, rfl, hpc⟩
    | _ => cases hevent

theorem World.deliveries_news (w : World) (action : Action) {event : DataEvent}
    (h : event ∈ w.deliveries action) : event ∈ w.news action := by
  cases action with
  | tick outcome => exact (w.ntf.tickStep_move w.mgr outcome w.pc).sent_reached h
  | _ => cases h

/-- The news of a step holds no event of the subscription, or exactly one: the first entry
that the running tick has to come to. -/
theorem World.news_cases (w : World) (action : Action) (sub : String) :
    eventsFor sub (w.news action) = [] ∨
      ∃ outcome e rest, action = .tick outcome ∧ w.pc.todo sub = e :: rest ∧
        w.news action = [e.toEvent sub] := by
  rcases w.sends_or_quiet action sub with ⟨outcome, e, entries, subs, lastSent, resumeIdx, rfl, hpc⟩ | hquiet
  · cases hnews : w.news (.tick outcome) with
    | nil => exact Or.inl rfl
    | cons event others =>
      have hevent : event ∈ w.news (.tick outcome) := hnews ▸ List.mem_cons_self
      have hmove := w.ntf.tickStep_move w.mgr outcome w.pc
      obtain ⟨hsingle, y, _, _, _, _, hsending, heq⟩ := hmove.reached_sending hevent
      rw [hpc] at hsending
      cases hsending
      refine Or.inr ⟨outcome, e, entries, rfl, by simp [hpc, TickPc.todo], ?_⟩
      rw [← heq, ← hnews]
      exact hsingle
  · exact Or.inl hquiet

end SevenDB.Emission
