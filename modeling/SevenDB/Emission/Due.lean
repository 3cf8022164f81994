import SevenDB.Emission.Lineup

/-!
# Entries that the next tick will send

An entry is due when no watermark in use has reached it, no resume point is above it and the
running tick cannot overtake it. In a subscription written in one order a due entry stays due
until it is sent, an acknowledgment at or past it is taken, or a later resume point is set.
This covers every interleaving of the sections of a tick with the other threads.
-/

namespace SevenDB.Emission

/-- Nothing keeps the notifier from sending the entry when it comes to it. -/
structure Due (sub : String) (w : World) (e : OutboxEntry) : Prop where
  marks : ∀ mark ∈ w.ntf.marks w.pc sub, mark.position < e.seq.position
  resume : (w.ntf.resumeIdx sub).toNat ≤ e.index
  turn : e ∈ w.pc.todo sub ∨ ∀ y ∈ w.pc.todo sub, y.seq.position < e.seq.position

/-- The steps that settle a due entry: it is sent, an acknowledgment at or past it is accepted
from the queue, or a resume point above it is set. -/
inductive Resolved (sub : String) (e : OutboxEntry) (w next : World) : Action → Prop
  | sent (outcome : SendOutcome) (hsent : e.toEvent sub ∈ w.deliveries (.tick outcome)) :
      Resolved sub e w next (.tick outcome)
  | acked (ack : ClientAck) (rest : List ClientAck) (hqueue : w.ntf.ackCh = ack :: rest)
      (haccepted : ack ∈ next.accepted) (hsub : ack.subID = sub)
      (hle : e.seq.position ≤ ack.emitSeq.position) : Resolved sub e w next .takeAck
  | passed (nextCommitIdx : UInt64) (hbelow : e.index < nextCommitIdx.toNat) :
      Resolved sub e w next (.setResumeFrom sub nextCommitIdx)

section DueRules

variable {sub : String} {w next : World} {action : Action} {e : OutboxEntry}

theorem Due.not_skipped (h : Due sub w e) : ¬ w.ntf.Skips w.pc sub e := by
  rintro (⟨mark, hmark, hle⟩ | hbelow)
  · exact absurd (h.marks mark hmark) (not_lt.mpr hle)
  · exact absurd h.resume (Nat.not_le_of_gt hbelow)

theorem Resolved.of_deliveries (hsent : e.toEvent sub ∈ w.deliveries action) :
    Resolved sub e w next action := by
  cases action with
  | tick outcome => exact .sent outcome hsent
  | _ => cases hsent

/-- A pending entry that no watermark of the notifier has reached is due between two visits. -/
theorem Due.of_idle (hmarks : (w.ntf.lastSent sub).position < e.seq.position)
    (hresume : (w.ntf.resumeIdx sub).toNat ≤ e.index) (hheld : w.pc.marks sub = [])
    (htodo : w.pc.todo sub = []) : Due sub w e := by
  refine ⟨?_, hresume, Or.inr fun y hy => ?_⟩
  · intro mark hmark
    rw [Notifier.marks, hheld, List.mem_singleton] at hmark
    rw [hmark]
    exact hmarks
  · rw [htodo] at hy
    cases hy

theorem Due.sent_before (h : Due sub w e) (hline : Lineup sub w) {y : OutboxEntry}
    {rest : List OutboxEntry} (htodo : w.pc.todo sub = y :: rest) (hne : e ≠ y) :
    y.seq.position < e.seq.position := by
  rcases h.turn with hmem | hall
  · have hincreasing := hline.todoIncreasing
    rw [htodo] at hmem hincreasing
    exact (List.pairwise_cons.mp hincreasing).1 e ((List.mem_cons.mp hmem).resolve_left hne)
  · exact hall y (htodo ▸ List.mem_cons_self)

theorem Due.turn_step (h : Due sub w e) (hsub : e.subID = sub) (hpending : w.mgr.IsPending e)
    (hstep : w.step action = some next) (hnot : e.toEvent sub ∉ w.deliveries action) :
    e ∈ next.pc.todo sub ∨ ∀ y ∈ next.pc.todo sub, y.seq.position < e.seq.position := by
  rcases World.step_todo hstep sub with hsame | hnil | hentered | ⟨head, hhead, hwhy⟩
  · rw [hsame]
    exact h.turn
  · rw [hnil]
    exact Or.inr fun y hy => (by cases hy)
  · rw [hentered]
    exact Or.inl ((w.mgr.mem_pending_iff sub e).mpr ⟨hsub, hpending⟩)
  · have hturn := h.turn
    rw [hhead] at hturn
    rcases hturn with hmem | hall
    · rcases List.mem_cons.mp hmem with rfl | hrest
      · rcases hwhy with hsent | hskip
        · exact absurd hsent hnot
        · exact absurd hskip h.not_skipped
      · exact Or.inl hrest
    · exact Or.inr fun y hy => hall y (List.mem_cons_of_mem head hy)

theorem Due.step (h : Due sub w e) (hline : Lineup sub w) (hsub : e.subID = sub)
    (hpending : w.mgr.IsPending e) (hstep : w.step action = some next) :
    Due sub next e ∨ Resolved sub e w next action := by
  by_cases hresolved : Resolved sub e w next action
  · exact Or.inr hresolved
  have hnot : e.toEvent sub ∉ w.deliveries action := fun hsent => hresolved (.of_deliveries hsent)
  refine Or.inl ⟨fun mark hmark => ?_, ?_, h.turn_step hsub hpending hstep hnot⟩
  · cases World.step_marks hstep hmark with
    | kept hold => exact h.marks mark hold
    | deleted => exact hline.positive e (hline.fromLog e hsub hpending)
    | sent y rest htodo hsent =>
      refine h.sent_before hline htodo ?_
      rintro rfl
      exact hnot hsent
    | acked ack rest hqueue haccepted hacksub =>
      exact not_le.mp fun hle => hresolved (.acked ack rest hqueue haccepted hacksub hle)
  · rcases World.step_resumeIdx hstep sub with hsame | ⟨hzero, _⟩ | hset
    · rw [hsame]
      exact h.resume
    · rw [hzero]
      exact Nat.zero_le _
    · refine not_lt.mp fun hbelow => hresolved ?_
      rw [hset]
      exact .passed _ hbelow

end DueRules

end SevenDB.Emission
