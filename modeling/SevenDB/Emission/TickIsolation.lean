import SevenDB.Emission.Rebind
import SevenDB.Emission.Tick

/-!
# Subscriptions do not disturb each other within a tick

The pass over the pending entries of one subscription reads and writes the watermark and the
resume index of that subscription only, and a failed send ends this pass and no other. So what
a tick does for a subscription is what one pass over its own entries does, wherever the tick
comes to it. The order in which the subscriptions are visited is that of a map, and is an
argument here. No event is offered to the sender twice in a tick, so the outcomes of the sends
are given as a function of the event.
-/

namespace SevenDB.Emission

open SevenDB.Common

/-- The sent watermark and the resume index of a subscription. -/
def Notifier.own (n : Notifier) (sub : String) : EmitSeq × UInt64 := (n.lastSent sub, n.resumeIdx sub)

/-- The events that one pass over the pending entries offers to the sender, the one that fails included. -/
def Notifier.offeredEntries (send : DataEvent → SendOutcome) (sub : String) :
    Notifier → List OutboxEntry → List DataEvent
  | _, [] => []
  | n, e :: entries =>
    if e.seq.notAfter (n.lastSent sub) then Notifier.offeredEntries send sub n entries
    else if n.resumeIdx sub > 0 && e.seq.commitIndex < n.resumeIdx sub then
      Notifier.offeredEntries send sub n entries
    else if send (e.toEvent sub) = .delivered then
      let marked := (n.markSent sub e (n.lastSent sub)).clearResume sub e (n.resumeIdx sub)
      e.toEvent sub :: Notifier.offeredEntries send sub marked entries
    -- without a sender the pass ends before anything is offered
    else if send (e.toEvent sub) = .noSender then []
    else [e.toEvent sub]

/-- The events that a tick offers to the sender. -/
def Notifier.offeredTick (send : DataEvent → SendOutcome) (mgr : Manager) :
    Notifier → List String → List DataEvent
  | _, [] => []
  | n, sub :: subs =>
    let visited := Notifier.processEntries send sub n (mgr.pending sub)
    Notifier.offeredEntries send sub n (mgr.pending sub) ++ Notifier.offeredTick send mgr visited.1 subs

section Offered

variable (send : DataEvent → SendOutcome) (mgr : Manager) (sub : String)

namespace Notifier

theorem processEntries_sent (n : Notifier) (entries : List OutboxEntry) :
    (processEntries send sub n entries).2 =
      (offeredEntries send sub n entries).filter fun event => send event = .delivered := by
  induction entries generalizing n with
  | nil => rfl
  | cons e entries ih =>
    simp only [processEntries, offeredEntries]
    split
    · exact ih n
    · split
      · exact ih n
      · split
        · next hdelivered => rw [List.filter_cons_of_pos (by simpa using hdelivered), ih]
        · next hfailed =>
          split
          · rfl
          · simp [hfailed]

theorem processTick_sent (n : Notifier) (subs : List String) :
    (processTick send mgr n subs).2 =
      (offeredTick send mgr n subs).filter fun event => send event = .delivered := by
  induction subs generalizing n with
  | nil => rfl
  | cons sub subs ih =>
    simp only [processTick, offeredTick, List.filter_append, ih,
      processEntries_sent]

/-- A pass offers events of entries that it goes through, in their order. -/
theorem offeredEntries_sublist (n : Notifier) (entries : List OutboxEntry) :
    (offeredEntries send sub n entries).Sublist (entries.map fun e => e.toEvent sub) := by
  induction entries generalizing n with
  | nil => exact List.Sublist.slnil
  | cons e entries ih =>
    simp only [offeredEntries, List.map_cons]
    split
    · exact (ih n).cons _
    · split
      · exact (ih n).cons _
      · split
        · exact (ih _).cons_cons _
        · split
          · exact List.nil_sublist _
          · exact (List.nil_sublist _).cons_cons _

theorem subID_of_mem_offeredEntries {n : Notifier} {entries : List OutboxEntry} {event : DataEvent}
    (hevent : event ∈ offeredEntries send sub n entries) : event.subID = sub := by
  obtain ⟨e, _, rfl⟩ := List.mem_map.mp ((offeredEntries_sublist send sub n entries).mem hevent)
  rfl

theorem subID_of_mem_offeredTick {n : Notifier} {subs : List String} {event : DataEvent}
    (hevent : event ∈ offeredTick send mgr n subs) : event.subID ∈ subs := by
  induction subs generalizing n with
  | nil => cases hevent
  | cons sub subs ih =>
    rcases List.mem_append.mp hevent with hown | hlater
    · rw [subID_of_mem_offeredEntries send sub hown]
      exact List.mem_cons_self
    · exact List.mem_cons_of_mem _ (ih hlater)

/-- No event is offered twice in a tick that visits every subscription once. -/
theorem offeredTick_nodup (n : Notifier) {subs : List String} (hsubs : subs.Nodup) :
    (offeredTick send mgr n subs).Nodup := by
  induction subs generalizing n with
  | nil => exact List.nodup_nil
  | cons sub subs ih =>
    rw [List.nodup_cons] at hsubs
    rw [offeredTick, List.nodup_append']
    refine ⟨?_, ih _ hsubs.2, fun event hown hlater => ?_⟩
    · refine List.Nodup.sublist (offeredEntries_sublist send sub n _) ?_
      rw [List.Nodup, List.pairwise_map]
      refine (mgr.ob.pendingSorted_signed sub).imp fun {first second} hdistinct heq => hdistinct.2 ?_
      exact congrArg (fun event : DataEvent => event.emitSeq.commitIndex) heq
    · rw [← subID_of_mem_offeredEntries send sub hown] at hsubs
      exact hsubs.1 (subID_of_mem_offeredTick send mgr hlater)

/-- Two subscriptions with one entry each. -/
theorem offeredTick_nodup_two :
    (offeredTick (fun _ => .delivered)
      (((newManager "m").applyOutboxWrite "a" ⟨⟨"m", 1⟩, 1⟩ [7]).applyOutboxWrite "b" ⟨⟨"m", 1⟩, 2⟩ [8])
      (newNotifier false) ["a", "b"]).Nodup :=
  offeredTick_nodup _ _ _ (by decide)

end Notifier

end Offered

section Own

variable (n : Notifier) (sub : String) (e : OutboxEntry)

namespace Notifier

/-- What marking an entry as sent makes of the watermark and the resume index of its subscription depends
on these two only. -/
theorem own_marked_congr {n' : Notifier} (hown : n.own sub = n'.own sub) :
    ((n.markSent sub e (n.lastSent sub)).clearResume sub e (n.resumeIdx sub)).own sub =
      ((n'.markSent sub e (n'.lastSent sub)).clearResume sub e (n'.resumeIdx sub)).own sub := by
  have hlast : n.lastSent sub = n'.lastSent sub := congrArg Prod.fst hown
  have hresume : n.resumeIdx sub = n'.resumeIdx sub := congrArg Prod.snd hown
  simp only [own, lastSent_clearResume, lastSent_markSent,
    resumeIdx_clearResume, resumeIdx_markSent, hlast, hresume]

theorem own_marked_of_ne {other : String} (hne : other ≠ sub) :
    ((n.markSent sub e (n.lastSent sub)).clearResume sub e (n.resumeIdx sub)).own other = n.own other := by
  simp [own, lastSent_markSent, resumeIdx_clearResume, hne]

/-- A pass over the entries of a subscription leaves the other ones alone. -/
theorem own_processEntries_of_ne (send : DataEvent → SendOutcome) {other : String}
    (hne : other ≠ sub) (entries : List OutboxEntry) :
    (processEntries send sub n entries).1.own other = n.own other := by
  induction entries generalizing n with
  | nil => rfl
  | cons e entries ih =>
    simp only [processEntries]
    split
    · exact ih n
    · split
      · exact ih n
      · split
        · rw [ih, own_marked_of_ne n sub e hne]
        · rfl

end Notifier

end Own

section TwoRuns

variable {send send' : DataEvent → SendOutcome} {sub : String}
  (hsend : ∀ event, event.subID = sub → send event = send' event)
include hsend

/-- Two passes over the same entries that start from the same watermark and resume index and whose sends
end alike offer the same events and leave the same watermark and resume index. -/
theorem Notifier.processEntries_agree {n n' : Notifier} (hown : n.own sub = n'.own sub)
    (entries : List OutboxEntry) :
    (Notifier.processEntries send sub n entries).1.own sub =
        (Notifier.processEntries send' sub n' entries).1.own sub ∧
      Notifier.offeredEntries send sub n entries = Notifier.offeredEntries send' sub n' entries := by
  induction entries generalizing n n' with
  | nil => exact ⟨hown, rfl⟩
  | cons e entries ih =>
    have hlast : n.lastSent sub = n'.lastSent sub := congrArg Prod.fst hown
    have hresume : n.resumeIdx sub = n'.resumeIdx sub := congrArg Prod.snd hown
    have hmarked := n.own_marked_congr sub e hown
    simp only [Notifier.processEntries, Notifier.offeredEntries, ← hsend (e.toEvent sub) rfl]
    rw [hlast, hresume] at hmarked ⊢
    split
    · exact ih hown
    · split
      · exact ih hown
      · split
        · exact ⟨(ih hmarked).1, congrArg _ (ih hmarked).2⟩
        · exact ⟨hown, rfl⟩

end TwoRuns

namespace Notifier

/-- A tick does for a subscription what one pass over its own pending entries does, and nothing when it is
not visited. -/
theorem processTick_own (send : DataEvent → SendOutcome) (mgr : Manager) (sub : String) (n : Notifier)
    {subs : List String} (hsubs : subs.Nodup) :
    (processTick send mgr n subs).1.own sub =
        (if sub ∈ subs then (processEntries send sub n (mgr.pending sub)).1.own sub else n.own sub) ∧
      (offeredTick send mgr n subs).filter (fun event => event.subID = sub) =
        if sub ∈ subs then offeredEntries send sub n (mgr.pending sub) else [] := by
  induction subs generalizing n with
  | nil => exact ⟨rfl, rfl⟩
  | cons head subs ih =>
    rw [List.nodup_cons] at hsubs
    obtain ⟨hown, hoffered⟩ := ih (processEntries send head n (mgr.pending head)).1 hsubs.2
    rw [processTick, offeredTick, List.filter_append, hown, hoffered]
    by_cases hhead : sub = head
    · subst hhead
      rw [if_neg hsubs.1, if_neg hsubs.1, if_pos List.mem_cons_self, if_pos List.mem_cons_self, List.append_nil]
      refine ⟨rfl, List.filter_eq_self.mpr fun event hevent => ?_⟩
      exact decide_eq_true (subID_of_mem_offeredEntries send sub hevent)
    · have hnone : (offeredEntries send head n (mgr.pending head)).filter
          (fun event => event.subID = sub) = [] := by
        refine List.filter_eq_nil_iff.mpr fun event hevent hsub => hhead ?_
        exact (of_decide_eq_true hsub).symm.trans (subID_of_mem_offeredEntries send head hevent)
      have hsame := n.own_processEntries_of_ne head send hhead (mgr.pending head)
      obtain ⟨hrest, hevents⟩ := processEntries_agree (fun _ _ => rfl) hsame (mgr.pending sub)
      rw [hnone, List.nil_append, hrest, hevents, hsame]
      simp only [List.mem_cons, hhead, false_or, and_self]

end Notifier

/-- A subscription that a tick does not visit has no pending entries. -/
theorem Manager.pending_eq_nil {mgr : Manager} {subs : List String} (horder : Lists subs mgr.ob.bySub)
    {sub : String} (hsub : sub ∉ subs) : mgr.pending sub = [] := by
  rw [List.eq_nil_iff_forall_not_mem]
  intro entry hentry
  obtain ⟨rfl, hpending⟩ := (mgr.mem_pending_iff sub entry).mp hentry
  have hlisted := Manager.mem_subsWithPending hpending
  rw [Manager.subsWithPending, ← horder.2, List.mem_toFinset] at hlisted
  exact hsub hlisted

/-- A tick over all subscriptions does for each one what one pass over its own pending entries does. -/
theorem Notifier.processTick_own_of_lists (send : DataEvent → SendOutcome) {mgr : Manager} (sub : String)
    (n : Notifier) {subs : List String} (horder : Lists subs mgr.ob.bySub) :
    (Notifier.processTick send mgr n subs).1.own sub =
        (Notifier.processEntries send sub n (mgr.pending sub)).1.own sub ∧
      (Notifier.offeredTick send mgr n subs).filter (fun event => event.subID = sub) =
        Notifier.offeredEntries send sub n (mgr.pending sub) := by
  obtain ⟨hown, hoffered⟩ := Notifier.processTick_own send mgr sub n horder.1
  rw [hown, hoffered]
  by_cases hsub : sub ∈ subs
  · rw [if_pos hsub, if_pos hsub]
    exact ⟨rfl, rfl⟩
  · rw [if_neg hsub, if_neg hsub, Manager.pending_eq_nil horder hsub]
    exact ⟨rfl, rfl⟩

/-- Two ticks that agree on the pending entries, the watermark, the resume index and the outcomes of the
sends of a subscription offer and send the same events for it in the same order, and leave it the same
watermark and resume index. -/
theorem tick_isolates_subscription {send send' : DataEvent → SendOutcome} {mgr mgr' : Manager}
    {n n' : Notifier} {subs subs' : List String} (sub : String)
    (horder : Lists subs mgr.ob.bySub) (horder' : Lists subs' mgr'.ob.bySub)
    (hpending : mgr.pending sub = mgr'.pending sub) (hlast : n.lastSent sub = n'.lastSent sub)
    (hresume : n.resumeIdx sub = n'.resumeIdx sub)
    (hsend : ∀ event, event.subID = sub → send event = send' event) :
    (Notifier.offeredTick send mgr n subs).filter (fun event => event.subID = sub) =
        (Notifier.offeredTick send' mgr' n' subs').filter (fun event => event.subID = sub) ∧
      (Notifier.processTick send mgr n subs).2.filter (fun event => event.subID = sub) =
        (Notifier.processTick send' mgr' n' subs').2.filter (fun event => event.subID = sub) ∧
      (Notifier.processTick send mgr n subs).1.lastSent sub =
        (Notifier.processTick send' mgr' n' subs').1.lastSent sub ∧
      (Notifier.processTick send mgr n subs).1.resumeIdx sub =
        (Notifier.processTick send' mgr' n' subs').1.resumeIdx sub := by
  have hown : n.own sub = n'.own sub := Prod.ext hlast hresume
  obtain ⟨hfirst, hoffered⟩ := Notifier.processTick_own_of_lists send sub n horder
  obtain ⟨hsecond, hoffered'⟩ := Notifier.processTick_own_of_lists send' sub n' horder'
  obtain ⟨hagree, hevents⟩ := Notifier.processEntries_agree hsend hown (mgr.pending sub)
  rw [hpending] at hagree hevents
  have hafter := (hpending ▸ hfirst).trans (hagree.trans hsecond.symm)
  have hsame := (hpending ▸ hoffered).trans (hevents.trans hoffered'.symm)
  refine ⟨hsame, ?_, congrArg Prod.fst hafter, congrArg Prod.snd hafter⟩
  -- the events sent are those offered that were delivered, and both runs deliver the same ones
  rw [Notifier.processTick_sent, Notifier.processTick_sent, List.filter_comm, hsame, List.filter_comm]
  rw [List.filter_filter, List.filter_filter]
  refine List.filter_congr fun event _ => ?_
  by_cases hevent : event.subID = sub
  · rw [hsend event hevent]
  · simp [hevent]

/-- A subscription whose neighbour fails first is served as if it were alone. -/
theorem tick_isolates_subscription_failing :
    Notifier.offeredTick (fun event => if event.subID = "b" then .failedLost else .delivered)
        (((newManager "m").applyOutboxWrite "a" ⟨⟨"m", 1⟩, 1⟩ [7]).applyOutboxWrite "b" ⟨⟨"m", 1⟩, 2⟩ [8])
        (newNotifier false) ["b", "a"] =
      [⟨"b", ⟨⟨"m", 1⟩, 2⟩, [8]⟩, ⟨"a", ⟨⟨"m", 1⟩, 1⟩, [7]⟩] ∧
    (Notifier.processTick (fun event => if event.subID = "b" then .failedLost else .delivered)
        (((newManager "m").applyOutboxWrite "a" ⟨⟨"m", 1⟩, 1⟩ [7]).applyOutboxWrite "b" ⟨⟨"m", 1⟩, 2⟩ [8])
        (newNotifier false) ["b", "a"]).2.filter (fun event => event.subID = "a") =
      (Notifier.processTick (fun _ => .delivered)
        ((newManager "m").applyOutboxWrite "a" ⟨⟨"m", 1⟩, 1⟩ [7]) (newNotifier true) ["a"]).2.filter
          (fun event => event.subID = "a") := by
  refine ⟨by decide +kernel, (tick_isolates_subscription "a" (by decide +kernel) (by decide +kernel)
    (by decide +kernel) (by decide +kernel) (by decide +kernel) fun event hevent => ?_).2.1⟩
  rw [if_neg]
  rw [hevent]
  decide

end SevenDB.Emission
