import SevenDB.Emission.Served
import SevenDB.Emission.TickRun

/-!
# Entries that wait to be sent again

A resume request or a cleared watermark is meant to make the notifier send pending entries
again. If the running tick is not visiting the subscription at the moment of the call and the
call leaves no watermark behind, every pending entry from the requested index on is due, and
it is sent before the end of the next whole tick whose sends succeed.
-/

namespace SevenDB.Emission

open SevenDB.Common

/-- The calls that ask for a subscription to be sent again from an index. -/
inductive ResumeCall (sub : String) : Action → UInt64 → Prop
  | setResumeFrom (nextCommitIdx : UInt64) : ResumeCall sub (.setResumeFrom sub nextCommitIdx) nextCommitIdx
  | clearWatermarks (clientID : String) (howner : hasPrefix sub (clientID ++ ":") = true) :
      ResumeCall sub (.clearWatermarks clientID) 0

/-- The running tick is not visiting the subscription, and the call leaves neither a sent
watermark nor an earlier resume point in force. -/
def CallHeeded (sub : String) (w : World) : Action → Prop
  | .setResumeFrom _ nextCommitIdx =>
    w.pc.current ≠ some sub ∧ (nextCommitIdx = 0 → w.ntf.sentThrough.lookup sub = none)
  | .clearWatermarks _ => w.pc.current ≠ some sub ∧ w.ntf.resumeIdx sub = 0
  | _ => False

/-- Nothing supersedes a resume request for an entry: writes are in order, no later resume
point is set and no acknowledgment at or past the entry is taken. -/
def Undisturbed (sub : String) (e : OutboxEntry) (w : World) (action : Action) : Prop :=
  OrderedWrites sub w action ∧
    match action with
    | .setResumeFrom target _ => target ≠ sub
    | .takeAck => ∀ ack ∈ w.ntf.ackCh.head?, ack.subID = sub → ack.emitSeq.position < e.seq.position
    | _ => True

section Heeded

variable {sub : String} {w next : World} {action : Action} {e : OutboxEntry}

theorem Resolved.delivered (h : Resolved sub e w next action) (hallowed : Undisturbed sub e w action) :
    e.toEvent sub ∈ w.deliveries action := by
  cases h with
  | sent outcome hsent => exact hsent
  | acked ack rest hqueue _ hsub hle =>
    have hbefore := hallowed.2 ack (by rw [hqueue]; rfl) hsub
    exact absurd hbefore (not_lt.mpr hle)
  | passed nextCommitIdx hbelow => exact absurd rfl hallowed.2

/-- The entry is waiting to be sent: as long as it is pending, it is due. -/
structure Awaiting (sub : String) (e : OutboxEntry) (w : World) : Prop where
  lineup : Lineup sub w
  written : e ∈ entriesFor sub w.written
  due : w.mgr.IsPending e → Due sub w e

/-- A heeded call makes every pending entry from its index on wait to be sent. -/
theorem Awaiting.of_call (hline : Lineup sub w) {nextCommitIdx : UInt64}
    (hcall : ResumeCall sub action nextCommitIdx) (hheeded : CallHeeded sub w action)
    (hstep : w.step action = some next) (hsub : e.subID = sub) (hpending : next.mgr.IsPending e)
    (hindex : nextCommitIdx.toNat ≤ e.index) : Awaiting sub e next := by
  have hordered : OrderedWrites sub w action := by
    cases hcall <;> trivial
  have hnext := hline.step hordered hstep
  have hwritten := hnext.fromLog e hsub hpending
  have hzero := hnext.positive e hwritten
  refine ⟨hnext, hwritten, fun _ => ?_⟩
  cases hcall with
  | setResumeFrom =>
    obtain ⟨htodo, hmarks⟩ := TickPc.empty_of_not_current hheeded.1
    cases hstep
    refine Due.of_idle ?_ ?_ hmarks htodo
    · rw [Notifier.lastSent_setResumeFrom]
      split
      · exact hzero
      · next hkept =>
        have hidx : nextCommitIdx = 0 := by
          by_contra hne
          exact hkept ⟨rfl, hne⟩
        rw [Notifier.lastSent, hheeded.2 hidx]
        exact hzero
    · rw [Notifier.resumeIdx_setResumeFrom, if_pos rfl]
      exact hindex
  | clearWatermarks clientID howner =>
    obtain ⟨htodo, hmarks⟩ := TickPc.empty_of_not_current hheeded.1
    cases hstep
    refine Due.of_idle ?_ ?_ hmarks htodo
    · rw [Notifier.lastSent_clearWatermarksForClient, if_pos howner]
      exact hzero
    · change (w.ntf.resumeIdx sub).toNat ≤ e.index
      rw [hheeded.2]
      exact Nat.zero_le _

section

variable (h : Awaiting sub e w) (hallowed : Undisturbed sub e w action) (hstep : w.step action = some next)
include h hallowed hstep

theorem Awaiting.keep :
    Lineup sub next ∧ e ∈ entriesFor sub next.written ∧
      (next.mgr.IsPending e → w.mgr.IsPending e) := by
  refine ⟨h.lineup.step hallowed.1 hstep, World.mem_written_step hstep h.written, fun hpending => ?_⟩
  exact (World.step_pending hstep hpending).resolve_right (hallowed.1.not_again h.written)

theorem Awaiting.step :
    Awaiting sub e next ∨ e.toEvent sub ∈ w.deliveries action := by
  by_cases hsent : e.toEvent sub ∈ w.deliveries action
  · exact Or.inr hsent
  obtain ⟨hline, hwritten, hbefore⟩ := h.keep hallowed hstep
  refine Or.inl ⟨hline, hwritten, fun hpending => ?_⟩
  have hsub := (mem_entriesFor.mp h.written).2
  have hpend := hbefore hpending
  rcases (h.due hpend).step h.lineup hsub hpend hstep with hdue | hresolved
  · exact hdue
  · exact absurd (hresolved.delivered hallowed) hsent

end

/-- The entry is waiting and, as long as it is pending, ahead of the running tick. -/
def Approached (sub : String) (e : OutboxEntry) (w : World) : Prop :=
  Awaiting sub e w ∧ (w.mgr.IsPending e → w.pc.Ahead sub e)

theorem Awaiting.startTick (h : Awaiting sub e w) {subs : List String}
    (hstep : w.step (.startTick subs) = some next) : Approached sub e next := by
  have hallowed : Undisturbed sub e w (.startTick subs) := ⟨trivial, trivial⟩
  have hnext : Awaiting sub e next := by
    rcases h.step hallowed hstep with hnext | hsent
    · exact hnext
    · cases hsent
  obtain ⟨_, _, hbefore⟩ := h.keep hallowed hstep
  have hsub := (mem_entriesFor.mp h.written).2
  exact ⟨hnext, fun hpending => hsub ▸ World.ahead_startTick hstep (hbefore hpending)⟩

/-- An undisturbed step of a tick with successful sends keeps the entry ahead or sends it. -/
theorem Approached.step (h : Approached sub e w) (hallowed : Undisturbed sub e w action)
    (hsuccess : SuccessfulTick sub w action) (hstep : w.step action = some next) :
    Approached sub e next ∨ e.toEvent sub ∈ w.deliveries action := by
  by_cases hsent : e.toEvent sub ∈ w.deliveries action
  · exact Or.inr hsent
  obtain ⟨_, _, hbefore⟩ := h.1.keep hallowed hstep
  refine Or.inl ⟨(h.1.step hallowed hstep).resolve_right hsent, fun hpending => ?_⟩
  have hsub := (mem_entriesFor.mp h.1.written).2
  have hpend := hbefore hpending
  rcases (h.1.due hpend).ahead_step h.1.lineup hsub hpend (h.2 hpend) hsuccess hstep with hstill | hresolved
  · exact hstill.2
  · exact absurd (hresolved.delivered hallowed) hsent

end Heeded

section Later

variable {sub : String} {e : OutboxEntry} {called middle started finish : World} {subs : List String}
  {later ticks : List Action}

/-- A waiting entry is sent before the end of the first completed tick whose sends succeed. -/
theorem Awaiting.sent_by_tick (h : Awaiting sub e called)
    (hlater : Run World.step (Undisturbed sub e) called later middle)
    (hstart : middle.step (.startTick subs) = some started)
    (hticks : Run World.step (fun state action => Undisturbed sub e state action ∧
      SuccessfulTick sub state action) started ticks finish)
    (hidle : finish.pc = .idle) (hpending : finish.mgr.IsPending e) :
    e.toEvent sub ∈ outputs World.step World.deliveries called (later ++ .startTick subs :: ticks) := by
  rw [hlater.outputs_append, outputs_cons _ _ hstart]
  rcases hlater.invariant_or_output World.deliveries (Awaiting sub e) (e.toEvent sub)
    (fun _ _ _ hinv hallowed hstep => hinv.step hallowed hstep) h with hmiddle | hsent
  · rcases hticks.invariant_or_output World.deliveries (Approached sub e) (e.toEvent sub)
      (fun _ _ _ hinv hallowed hstep => hinv.step hallowed.1 hallowed.2 hstep)
      (hmiddle.startTick hstart) with hfinish | hsent
    · have hahead := hfinish.2 hpending
      rw [hidle] at hahead
      exact absurd hahead (TickPc.not_ahead_idle sub e)
    · exact List.mem_append_right _ (List.mem_append_right _ hsent)
  · exact List.mem_append_left _ hsent

/-- Sections of the running tick with successful sends disturb nothing. -/
theorem SendsAs.undisturbed {w : World} {action : Action} (h : SendsAs (fun _ => .delivered) w action) :
    Undisturbed sub e w action ∧ SuccessfulTick sub w action := by
  obtain ⟨outcome, rfl, houtcome⟩ := h
  refine ⟨⟨trivial, trivial⟩, fun hsending => ?_⟩
  cases hpc : w.pc with
  | sending target y entries subs lastSent resumeIdx => exact houtcome _ _ _ _ _ _ hpc
  | _ =>
    rw [hpc] at hsending
    cases hsending

/-- From every state there are a completion of the running tick and a further whole tick. -/
theorem exists_next_tick (called : World) :
    ∃ later middle subs started ticks finish,
      Run World.step (SendsAs fun _ => .delivered) called later middle ∧
      middle.step (.startTick subs) = some started ∧
      Run World.step (SendsAs fun _ => .delivered) started ticks finish ∧
      finish.pc = .idle ∧ finish.mgr = called.mgr := by
  obtain ⟨later, middle, hlater, hidle, hmgr⟩ := exists_tick_end called
  let subs := middle.mgr.subsWithPending.toList
  let started : World := { middle with pc := .scan subs }
  have hstart : middle.step (.startTick subs) = some started := by
    rw [World.step, if_pos ⟨hidle, middle.mgr.subsWithPending.nodup_toList,
      middle.mgr.subsWithPending.toList_toFinset⟩]
  obtain ⟨ticks, finish, hticks, hend, hmgr'⟩ := exists_tick_end started
  exact ⟨later, middle, subs, started, ticks, finish, hlater, hstart, hticks, hend, hmgr'.trans hmgr⟩

end Later

end SevenDB.Emission
