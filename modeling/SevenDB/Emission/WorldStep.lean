import SevenDB.Emission.History

/-!
# What one step does to the running tick

Where the watermarks and the resume points in use come from, and what becomes of the entries a
running tick has to come to, whichever thread takes the step.
-/

namespace SevenDB.Emission

section Inversion

variable {w next : World} {action : Action} (hstep : w.step action = some next) (sub : String)
include hstep

/-- A step keeps the resume point of a subscription, deletes it or sets it. -/
theorem World.step_resumeIdx :
    next.ntf.resumeIdx sub = w.ntf.resumeIdx sub ∨
      (next.ntf.resumeIdx sub = 0 ∧ (action = .replaceNotifier ∨
        ∃ e entries subs resumeIdx, w.pc = .marked sub e entries subs resumeIdx)) ∨
      action = .setResumeFrom sub (next.ntf.resumeIdx sub) := by
  cases World.stepped hstep with
  | tick outcome =>
    rcases (w.ntf.tickStep_move w.mgr outcome w.pc).resumeIdx_cases sub with hsame | ⟨hzero, hmarked⟩
    · exact Or.inl hsame
    · exact Or.inr (Or.inl ⟨hzero, Or.inr hmarked⟩)
  | takeAck ack rest => exact Or.inl (w.resumeIdx_processAck ack rest sub)
  | setResumeFrom =>
    rw [Notifier.resumeIdx_setResumeFrom]
    split
    · next heq =>
      rw [heq]
      exact Or.inr (Or.inr rfl)
    · exact Or.inl rfl
  | replaceNotifier => exact Or.inr (Or.inl ⟨rfl, Or.inl rfl⟩)
  | _ => exact Or.inl rfl

/-- A step keeps the entries a tick has to come to, gives them up, takes the pending entries
afresh, or drops the first entry because it was sent or must be skipped. -/
theorem World.step_todo :
    next.pc.todo sub = w.pc.todo sub ∨ next.pc.todo sub = [] ∨ next.pc.todo sub = w.mgr.pending sub ∨
      ∃ e, w.pc.todo sub = e :: next.pc.todo sub ∧
        (e.toEvent sub ∈ w.deliveries action ∨ w.ntf.Skips w.pc sub e) := by
  cases World.stepped hstep with
  | tick outcome =>
    rcases (w.ntf.tickStep_move w.mgr outcome w.pc).todo_cases sub with hsame | ⟨hnil, _⟩ | hlast
    · exact Or.inl hsame
    · exact Or.inr (Or.inl hnil)
    · exact Or.inr (Or.inr hlast)
  | startTick | replaceNotifier => exact Or.inr (Or.inl rfl)
  | _ => exact Or.inl rfl

/-- What a tick has to come to after a step it had to come to before, or it was pending. -/
theorem World.mem_todo_step {e : OutboxEntry} (he : e ∈ next.pc.todo sub) :
    e ∈ w.pc.todo sub ∨ e ∈ w.mgr.pending sub := by
  rcases World.step_todo hstep sub with hsame | hnil | hpending | ⟨head, hhead, _⟩
  · exact Or.inl (hsame ▸ he)
  · rw [hnil] at he
    cases he
  · exact Or.inr (hpending ▸ he)
  · exact Or.inl (hhead ▸ List.mem_cons_of_mem head he)

end Inversion

/-- Where a position comes from that is in use after a step: it was in use before, a watermark
was deleted, the first entry to come to was sent, or an acknowledgment was taken. -/
inductive World.MarkFrom (w next : World) (sub : String) : Action → EmitSeq → Prop
  | kept {action : Action} {mark : EmitSeq} (hold : mark ∈ w.ntf.marks w.pc sub) :
      MarkFrom w next sub action mark
  | deleted {action : Action} : MarkFrom w next sub action .zero
  | sent {action : Action} (e : OutboxEntry) (rest : List OutboxEntry) (htodo : w.pc.todo sub = e :: rest)
      (hsent : e.toEvent sub ∈ w.deliveries action) : MarkFrom w next sub action e.seq
  | acked (ack : ClientAck) (rest : List ClientAck) (hqueue : w.ntf.ackCh = ack :: rest)
      (haccepted : ack ∈ next.accepted) (hsub : ack.subID = sub) :
      MarkFrom w next sub .takeAck ack.emitSeq

section Marks

variable {w next : World} {action : Action} {sub : String} {mark : EmitSeq}

/-- Changing only the watermarks keeps the positions in use or deletes some of them. -/
theorem World.MarkFrom.of_lastSent {after : Notifier}
    (hlast : after.lastSent sub = w.ntf.lastSent sub ∨ after.lastSent sub = .zero)
    (hmark : mark ∈ after.marks w.pc sub) : w.MarkFrom next sub action mark := by
  rcases List.mem_cons.mp hmark with heq | hheld
  · rcases hlast with hsame | hzero
    · exact .kept (heq ▸ hsame ▸ List.mem_cons_self)
    · rw [heq, hzero]
      exact .deleted
  · exact .kept (List.mem_cons_of_mem _ hheld)

theorem World.step_marks (hstep : w.step action = some next) (hmark : mark ∈ next.ntf.marks next.pc sub) :
    w.MarkFrom next sub action mark := by
  cases World.stepped hstep with
  | tick outcome =>
    rcases (w.ntf.tickStep_move w.mgr outcome w.pc).marks_from sub hmark with
      hold | ⟨e, rest, htodo, hsent, rfl⟩
    · exact .kept hold
    · exact .sent e rest htodo hsent
  | takeAck ack rest hidle hqueue =>
    change mark ∈ Notifier.marks _ w.pc sub at hmark
    rw [hidle] at hmark
    rw [List.mem_singleton.mp hmark]
    rcases w.lastSent_processAck ack rest sub with hsame | ⟨hsub, hlast, haccepted⟩
    · rw [hsame]
      exact .kept List.mem_cons_self
    · rw [hlast]
      exact .acked ack rest hqueue haccepted hsub.symm
  | startTick =>
    rw [List.mem_singleton.mp hmark]
    exact .kept List.mem_cons_self
  | setResumeFrom =>
    refine .of_lastSent ?_ hmark
    rw [Notifier.lastSent_setResumeFrom]
    split
    · exact Or.inr rfl
    · exact Or.inl rfl
  | clearWatermarks =>
    refine .of_lastSent ?_ hmark
    rw [Notifier.lastSent_clearWatermarksForClient]
    split
    · exact Or.inr rfl
    · exact Or.inl rfl
  | replaceNotifier =>
    rw [List.mem_singleton.mp hmark]
    exact .deleted
  | _ => exact .kept hmark

end Marks

/-- The actions during one tick whose sends for the subscription all succeed. -/
def SuccessfulTick (sub : String) (w : World) : Action → Prop
  | .tick outcome => w.pc.sendingTo = some sub → outcome = .delivered
  | .startTick _ => False
  | .replaceNotifier => False
  | _ => True

instance (sub : String) (w : World) (action : Action) : Decidable (SuccessfulTick sub w action) := by
  rcases action with _ | _ | _ | _ | _ | _ | _ | _ | _ | _ <;> dsimp only [SuccessfulTick] <;> infer_instance

/-- While sends to the subscription succeed, a pending entry stays ahead of the tick until it
is sent or must be skipped. -/
theorem World.step_ahead {w next : World} {action : Action} (hstep : w.step action = some next)
    {sub : String} (hallowed : SuccessfulTick sub w action) {e : OutboxEntry}
    (hpending : e ∈ w.mgr.pending sub) (hahead : w.pc.Ahead sub e) :
    next.pc.Ahead sub e ∨ e.toEvent sub ∈ w.deliveries action ∨ w.ntf.Skips w.pc sub e := by
  cases World.stepped hstep with
  | tick outcome => exact (w.ntf.tickStep_move w.mgr outcome w.pc).ahead_cases hpending hallowed hahead
  | startTick | replaceNotifier => exact absurd hallowed id
  | _ => exact Or.inl hahead

theorem World.ahead_startTick {w next : World} {subs : List String}
    (hstep : w.step (.startTick subs) = some next) {e : OutboxEntry} (hpending : w.mgr.IsPending e) :
    next.pc.Ahead e.subID e := by
  cases World.stepped hstep with
  | startTick _ _ hsubs =>
    have hlisted := Manager.mem_subsWithPending hpending
    rw [← hsubs] at hlisted
    exact Or.inl (List.mem_toFinset.mp hlisted)

theorem TickPc.not_ahead_idle (sub : String) (e : OutboxEntry) : ¬ TickPc.idle.Ahead sub e := by
  rintro (hleft | htodo)
  · cases hleft
  · cases htodo

end SevenDB.Emission
