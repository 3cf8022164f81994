import SevenDB.Common.RisingStream
import SevenDB.Emission.Cursor
import SevenDB.Emission.Served
import SevenDB.Emission.Shield

/-!
# A subscription that was resumed

What the notifier has sent to a subscription since its client reported a position and a resume
point was set there. The cursor of the subscription starts at the reported position, the resume
point holds back what is below it until the first entry above it was sent, and from then on the
sent watermark does.
-/

namespace SevenDB.Emission

open SevenDB.Common

/-- The environment of a subscription whose client has processed up to a position: writes in
order within the epoch, acknowledgments up to the position, purges of what was acknowledged. -/
def ReconnectAllowed (epoch : EpochID) (sub : String) (position : ℕ) (w : World) : Action → Prop
  | .write target seq _ => target = sub →
      seq.epoch = epoch ∧ seq.index < 2 ^ 63 ∧ ∀ e ∈ entriesFor sub w.written, e.index < seq.index
  | .purge target upTo => target = sub → ⟨sub, upTo⟩ ∈ w.accepted
  | .ack ack => ack.subID = sub → ack.emitSeq.epoch = epoch ∧ ack.emitSeq.index ≤ position
  | .applyAck ack => ack.subID = sub → ack.emitSeq.epoch = epoch ∧ ack.emitSeq.index ≤ position
  | _ => True

instance (epoch : EpochID) (sub : String) (position : ℕ) (w : World) (action : Action) :
    Decidable (ReconnectAllowed epoch sub position w action) := by
  rcases action with _ | _ | _ | _ | _ | _ | _ | _ | _ | _ <;> dsimp only [ReconnectAllowed] <;> infer_instance

/-- The events of a subscription that were sent after the first so many events. -/
def sentSince (sub : String) (before : ℕ) (w : World) : List DataEvent :=
  eventsFor sub (w.sent.drop before)

/-- The environment after the resume request: acknowledgments also of what was sent since, sends
to the subscription that succeed, and no further change of its watermarks from outside. -/
def ResumedAllowed (epoch : EpochID) (sub : String) (position before : ℕ) (w : World) : Action → Prop
  | .write target seq _ => target = sub →
      seq.epoch = epoch ∧ seq.index < 2 ^ 63 ∧ ∀ e ∈ entriesFor sub w.written, e.index < seq.index
  | .purge target upTo => target = sub → ⟨sub, upTo⟩ ∈ w.accepted
  | .ack ack => ack.subID = sub → ack.emitSeq.epoch = epoch ∧
      (ack.emitSeq.index ≤ position ∨ ∃ event ∈ sentSince sub before w, event.emitSeq = ack.emitSeq)
  | .applyAck ack => ack.subID = sub → ack.emitSeq.epoch = epoch ∧
      (ack.emitSeq.index ≤ position ∨ ∃ event ∈ sentSince sub before w, event.emitSeq = ack.emitSeq)
  | .tick outcome => w.pc.sendingTo = some sub → outcome = .delivered
  | .setResumeFrom target _ => target ≠ sub
  | .clearWatermarks clientID => hasPrefix sub (clientID ++ ":") = false
  | .replaceNotifier => False
  | _ => True

instance (epoch : EpochID) (sub : String) (position before : ℕ) (w : World) (action : Action) :
    Decidable (ResumedAllowed epoch sub position before w action) := by
  rcases action with _ | _ | _ | _ | _ | _ | _ | _ | _ | _ <;> dsimp only [ResumedAllowed] <;> infer_instance

/-- How far the client has come: the last event sent since, or the position it reported. -/
def resumePoint (position : ℕ) (since : List DataEvent) : ℕ :=
  (since.getLast?.map DataEvent.index).getD position

@[simp] theorem resumePoint_append (position : ℕ) (since : List DataEvent) (event : DataEvent) :
    resumePoint position (since ++ [event]) = event.index := by
  simp [resumePoint]

/-- The entries of a subscription above a position. -/
def entriesAbove (position : ℕ) (sub : String) (written : List OutboxEntry) : List OutboxEntry :=
  (entriesFor sub written).filter fun e => position < e.index

/-- The client has been sent the entries above its position up to the resume point. -/
structure Resumed (epoch : EpochID) (sub : String) (position before : ℕ) (w : World) : Prop where
  recorded : before ≤ w.sent.length
  floor : position ≤ resumePoint position (sentSince sub before w)
  cursor : Cursor epoch sub (resumePoint position (sentSince sub before w)) w
  shield : Shield (entriesFor sub w.written) (resumePoint position (sentSince sub before w)) sub w.ntf w.pc
  upTo : sentSince sub before w =
    ((entriesAbove position sub w.written).filter fun e =>
      e.index ≤ resumePoint position (sentSince sub before w)).map fun e => e.toEvent sub
  origin : (resumePoint position (sentSince sub before w) = position ∧
      (w.ntf.resumeIdx sub).toNat = position + 1) ∨
    ∃ x ∈ entriesFor sub w.written, x.index = resumePoint position (sentSince sub before w)

section Rules

variable {epoch : EpochID} {sub : String} {position before : ℕ} {w next : World} {action : Action}

theorem ReconnectAllowed.account (hallowed : ReconnectAllowed epoch sub position w action) :
    AccountAllowed epoch sub position w action := by
  cases action with
  | write | purge => exact hallowed
  | ack | applyAck => exact fun hsub => Or.inr (hallowed hsub)
  | _ => trivial

theorem Resumed.since_le (h : Resumed epoch sub position before w) {event : DataEvent}
    (hevent : event ∈ sentSince sub before w) :
    event.index ≤ resumePoint position (sentSince sub before w) := by
  rw [h.upTo] at hevent
  obtain ⟨e, he, rfl⟩ := List.mem_map.mp hevent
  exact of_decide_eq_true (List.mem_filter.mp he).2

theorem Resumed.account (h : Resumed epoch sub position before w)
    (hallowed : ResumedAllowed epoch sub position before w action) :
    AccountAllowed epoch sub (resumePoint position (sentSince sub before w)) w action := by
  have hack (ack : ClientAck) (hbound : ack.subID = sub → ack.emitSeq.epoch = epoch ∧
      (ack.emitSeq.index ≤ position ∨ ∃ event ∈ sentSince sub before w, event.emitSeq = ack.emitSeq))
      (hsub : ack.subID = sub) :
      ack.emitSeq.Behind epoch (resumePoint position (sentSince sub before w)) := by
    obtain ⟨hepoch, hle | ⟨event, hevent, heq⟩⟩ := hbound hsub
    · exact Or.inr ⟨hepoch, hle.trans h.floor⟩
    · exact Or.inr ⟨hepoch, heq ▸ h.since_le hevent⟩
  cases action with
  | write | purge => exact hallowed
  | ack ack | applyAck ack => exact hack ack hallowed
  | _ => trivial

theorem sentSince_step (sub : String) (hrecorded : before ≤ w.sent.length)
    (hstep : w.step action = some next) (hkept : action ≠ .replaceNotifier) :
    before ≤ next.sent.length ∧
      sentSince sub before next = sentSince sub before w ++ eventsFor sub (w.deliveries action) := by
  have hsent := (World.step_sent hstep).resolve_left hkept
  constructor
  · rw [hsent, List.length_append]
    omega
  · rw [sentSince, hsent, List.drop_append_of_le_length hrecorded, eventsFor_append]
    rfl

section

variable (h : Resumed epoch sub position before w)
  (hallowed : ResumedAllowed epoch sub position before w action) (hstep : w.step action = some next)
include h hallowed hstep

theorem Resumed.shield_step (hquiet : ∀ outcome, action = .tick outcome → w.pc.sendingTo ≠ some sub) :
    Shield (entriesFor sub next.written) (resumePoint position (sentSince sub before w)) sub next.ntf
      next.pc := by
  rcases World.step_written hstep sub with hsame | ⟨seq, delta, rfl, hnew⟩
  · rw [hsame]
    cases World.stepped hstep with
    | tick outcome =>
      exact h.shield.move (w.ntf.tickStep_move w.mgr outcome w.pc) h.cursor.ledger.inEpoch
        h.cursor.queue.fromLog (hquiet outcome rfl)
    | takeAck ack rest hidle =>
      have hback := h.shield
      rw [hidle] at hback
      change Shield _ _ sub _ w.pc
      rw [hidle]
      exact HoldsBack.mono hback (w.lastSent_le_processAck ack rest sub) (w.resumeIdx_processAck ack rest sub)
    | startTick subs hidle =>
      have hback := h.shield
      rw [hidle] at hback
      exact hback
    | setResumeFrom target nextCommitIdx =>
      have hother : sub ≠ target := fun heq => hallowed heq.symm
      apply h.shield.congr
      · rw [Notifier.lastSent_setResumeFrom, if_neg fun heq => hother heq.1]
      · rw [Notifier.resumeIdx_setResumeFrom, if_neg hother]
    | clearWatermarks clientID =>
      have howner : hasPrefix sub (clientID ++ ":") = false := hallowed
      refine h.shield.congr ?_ rfl
      rw [Notifier.lastSent_clearWatermarksForClient, howner]
      rfl
    | replaceNotifier => exact absurd hallowed id
    | _ => exact h.shield
  · obtain ⟨_, _, hnext⟩ := hallowed rfl
    cases hstep
    rw [hnew]
    refine h.shield.append fun hle => ?_
    rcases h.origin with ⟨hfresh, hresume⟩ | ⟨x, hx, hxlimit⟩
    · rw [hfresh] at hle ⊢
      refine ⟨by rw [hresume]; omega, fun e he heq => ?_⟩
      have hlt : e.index < seq.index := hnext e he
      change seq.index ≤ position at hle
      omega
    · have hlt : x.index < seq.index := hnext x hx
      change seq.index ≤ _ at hle
      omega

/-- A step that sends nothing to the subscription keeps the origin of the resume point. -/
theorem Resumed.origin_step :
    (resumePoint position (sentSince sub before w) = position ∧
        (next.ntf.resumeIdx sub).toNat = position + 1) ∨
      ∃ x ∈ entriesFor sub next.written, x.index = resumePoint position (sentSince sub before w) := by
  have hlogged (hold : ∃ x ∈ entriesFor sub w.written,
      x.index = resumePoint position (sentSince sub before w)) :
      ∃ x ∈ entriesFor sub next.written, x.index = resumePoint position (sentSince sub before w) := by
    obtain ⟨x, hx, heq⟩ := hold
    exact ⟨x, World.mem_written_step hstep hx, heq⟩
  rcases World.step_resumeIdx hstep sub with
    hsame | ⟨_, rfl | ⟨e, entries, subs, resumeIdx, hpc⟩⟩ | hset
  · rw [hsame]
    exact h.origin.imp_right hlogged
  · exact absurd hallowed id
  · have hshield := h.shield
    rw [hpc] at hshield
    simp only [Shield, if_true] at hshield
    exact Or.inr (hlogged ⟨e, hshield.1, hshield.2.1⟩)
  · rw [hset] at hallowed
    exact absurd rfl hallowed

theorem Resumed.entriesUpTo_step :
    (entriesAbove position sub next.written).filter
        (fun e => e.index ≤ resumePoint position (sentSince sub before w)) =
      (entriesAbove position sub w.written).filter
        (fun e => e.index ≤ resumePoint position (sentSince sub before w)) := by
  rcases World.step_written hstep sub with hsame | ⟨seq, delta, rfl, hnew⟩
  · rw [entriesAbove, entriesAbove, hsame]
  · obtain ⟨_, _, hnext⟩ := hallowed rfl
    have hout : ¬ (position < seq.index ∧ seq.index ≤ resumePoint position (sentSince sub before w)) := by
      rcases h.origin with ⟨hfresh, _⟩ | ⟨x, hx, hxlimit⟩
      · rw [hfresh]
        omega
      · have hlt : x.index < seq.index := hnext x hx
        omega
    rw [entriesAbove, entriesAbove, hnew, List.filter_append, List.filter_append, List.filter_singleton]
    by_cases habove : position < seq.index
    · have hbeyond : ¬ seq.index ≤ resumePoint position (sentSince sub before w) :=
        fun hle => hout ⟨habove, hle⟩
      simp [OutboxEntry.index, habove, hbeyond]
    · simp [OutboxEntry.index, habove]

/-- A step that sends nothing to the subscription leaves the client where it was. -/
theorem Resumed.step_quiet (hsends : ∀ outcome, action = .tick outcome → w.pc.sendingTo ≠ some sub) :
    Resumed epoch sub position before next := by
  have hnews : eventsFor sub (w.news action) = [] := by
    rcases w.sends_or_quiet action sub with ⟨outcome, e, entries, subs, lastSent, resumeIdx, hact, hpc⟩ | hquiet
    · exact absurd (by rw [hpc]; rfl) (hsends outcome hact)
    · exact hquiet
  have hnone (event : DataEvent) (hevent : event ∈ w.news action) (hsub : event.subID = sub) : False :=
    List.filter_eq_nil_iff.mp hnews event hevent (decide_eq_true hsub)
  have hdeliveries : eventsFor sub (w.deliveries action) = [] := by
    refine List.filter_eq_nil_iff.mpr fun event hevent hsub => ?_
    exact hnone event (w.deliveries_news action hevent) (of_decide_eq_true hsub)
  have hkept : action ≠ .replaceNotifier := by
    rintro rfl
    exact hallowed
  obtain ⟨hrecorded, hsince⟩ := sentSince_step sub h.recorded hstep hkept
  rw [hdeliveries, List.append_nil] at hsince
  refine ⟨hrecorded, ?_, ?_, ?_, ?_, ?_⟩
  · rw [hsince]
    exact h.floor
  · rw [hsince]
    refine h.cursor.step (h.account hallowed) ?_ hstep le_rfl ?_
    · rintro nextCommitIdx rfl
      exact hallowed rfl
    · intro event hevent hsub
      exact absurd hsub (hnone event hevent)
  · rw [hsince]
    exact h.shield_step hallowed hstep hsends
  · rw [hsince, h.entriesUpTo_step hallowed hstep]
    exact h.upTo
  · rw [hsince]
    exact h.origin_step hallowed hstep

end

/-- A step that sends an entry to the subscription moves the client to the next entry. -/
theorem Resumed.step_sends (h : Resumed epoch sub position before w) {e : OutboxEntry}
    {entries : List OutboxEntry} {subs : List String} {lastSent : EmitSeq} {resumeIdx : UInt64}
    (hpc : w.pc = .sending sub e entries subs lastSent resumeIdx)
    (hstep : w.step (.tick .delivered) = some next) : Resumed epoch sub position before next := by
  have heffect : w.ntf.tickStep w.mgr .delivered w.pc =
      ⟨w.ntf, .sendReturned sub e entries subs lastSent resumeIdx, [e.toEvent sub], [e.toEvent sub]⟩ := by
    rw [hpc]
    rfl
  have hnews : w.news (.tick .delivered) = [e.toEvent sub] := congrArg TickEffect.reached heffect
  have hdeliveries : eventsFor sub (w.deliveries (.tick .delivered)) = [e.toEvent sub] := by
    rw [show w.deliveries (.tick .delivered) = [e.toEvent sub] from congrArg TickEffect.sent heffect]
    simp [eventsFor, OutboxEntry.toEvent]
  obtain ⟨hrecorded, hsince⟩ := sentSince_step sub h.recorded hstep (by simp)
  rw [hdeliveries] at hsince
  have hpoint : resumePoint position (sentSince sub before next) = e.index := by
    rw [hsince, resumePoint_append, OutboxEntry.toEvent_index]
  have hshield := h.shield
  rw [hpc] at hshield
  obtain ⟨habove, hnewer⟩ := hshield.2 rfl
  have hqueue := h.cursor.queue
  rw [hpc] at hqueue
  simp only [TickPc.todo, if_true] at hqueue
  have he := hqueue.fromLog e List.mem_cons_self
  have hcursor : Cursor epoch sub e.index next := by
    refine h.cursor.tick hstep habove.le ?_
    intro event hevent _
    rw [hnews, List.mem_singleton] at hevent
    rw [hevent]
    exact le_rfl
  have hnext : next.pc = .sendReturned sub e entries subs lastSent resumeIdx ∧
      next.written = w.written := by
    cases World.stepped hstep
    exact ⟨congrArg TickEffect.pc heffect, rfl⟩
  have hposition : position < e.index := lt_of_le_of_lt h.floor habove
  refine ⟨hrecorded, ?_, ?_, ?_, ?_, ?_⟩
  · rw [hpoint]
    exact hposition.le
  · rw [hpoint]
    exact hcursor
  · rw [hpoint, hnext.1, hnext.2]
    simp only [Shield, if_true]
    exact ⟨he, trivial, hnewer⟩
  · have hmem : e ∈ entriesAbove position sub w.written :=
      List.mem_filter.mpr ⟨he, decide_eq_true hposition⟩
    have hincreasing : (entriesAbove position sub w.written).Pairwise fun first second =>
        first.index < second.index :=
      h.cursor.ledger.increasing.sublist List.filter_sublist
    rw [hpoint, hnext.2, filter_le_next hincreasing hmem habove fun x hx hlt =>
      hqueue.before_head (List.mem_filter.mp hx).1 hlt, List.map_append, ← h.upTo, List.map_singleton]
    exact hsince
  · rw [hpoint, hnext.2]
    exact Or.inr ⟨e, he, rfl⟩

/-- Every allowed step keeps the client on the entries above its position. -/
theorem Resumed.step (h : Resumed epoch sub position before w)
    (hallowed : ResumedAllowed epoch sub position before w action) (hstep : w.step action = some next) :
    Resumed epoch sub position before next := by
  by_cases hsends : ∃ outcome, action = .tick outcome ∧ w.pc.sendingTo = some sub
  · obtain ⟨outcome, rfl, hsending⟩ := hsends
    obtain ⟨e, entries, subs, lastSent, resumeIdx, hpc⟩ := TickPc.sendingTo_eq_some hsending
    have houtcome : outcome = .delivered := hallowed hsending
    subst houtcome
    exact h.step_sends hpc hstep
  · exact h.step_quiet hallowed hstep fun outcome hact hsending => hsends ⟨outcome, hact, hsending⟩

end Rules

end SevenDB.Emission
