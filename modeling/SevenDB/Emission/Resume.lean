import SevenDB.Emission.Awaiting

/-!
# Resume requests take effect, except during a visit

A heeded resume request is honoured by every later tick whose sends succeed. A request that
comes between the send and the mark of a running tick is lost: the tick records the entry as
sent after the request has cleared the watermark, and no later tick sends it again.
-/

namespace SevenDB.Emission

open SevenDB.Common

/-- A heeded resume call takes effect: every entry pending after the call from its index on is
sent again before the end of any later tick whose sends succeed, and there are such ticks. -/
theorem resume_takes_effect (bucketID : String) (epoch : EpochID) (proposer : Bool) (sub : String)
    {actions : List Action} {w called : World} {call : Action} {nextCommitIdx : UInt64}
    (hrun : Run World.step (OrderedWrites sub) (World.init bucketID epoch proposer) actions w)
    (hcall : ResumeCall sub call nextCommitIdx) (hheeded : CallHeeded sub w call)
    (hstep : w.step call = some called) (e : OutboxEntry) (hsub : e.subID = sub)
    (hpending : called.mgr.IsPending e) (hindex : nextCommitIdx.toNat ≤ e.index) :
    (∀ later middle subs started ticks finish, Run World.step (Undisturbed sub e) called later middle →
      middle.step (.startTick subs) = some started →
      Run World.step (fun state action => Undisturbed sub e state action ∧
        SuccessfulTick sub state action) started ticks finish →
      finish.pc = .idle → finish.mgr.IsPending e →
      e.toEvent sub ∈ outputs World.step World.deliveries called (later ++ .startTick subs :: ticks)) ∧
    ∃ later middle subs started ticks finish,
      Run World.step (SendsAs fun _ => .delivered) called later middle ∧
      middle.step (.startTick subs) = some started ∧
      Run World.step (SendsAs fun _ => .delivered) started ticks finish ∧ finish.pc = .idle ∧
      e.toEvent sub ∈ outputs World.step World.deliveries called (later ++ .startTick subs :: ticks) := by
  have hline : Lineup sub w :=
    hrun.invariant (Lineup sub) (fun _ _ _ hinv hallowed hnext => hinv.step hallowed hnext)
      (Lineup.init bucketID epoch proposer)
  have hawaiting := Awaiting.of_call hline hcall hheeded hstep hsub hpending hindex
  constructor
  · intro later middle subs started ticks finish hlater hstart hticks hidle hstill
    exact hawaiting.sent_by_tick hlater hstart hticks hidle hstill
  · obtain ⟨later, middle, subs, started, ticks, finish, hlater, hstart, hticks, hidle, hmgr⟩ :=
      exists_next_tick called
    refine ⟨later, middle, subs, started, ticks, finish, hlater, hstart, hticks, hidle, ?_⟩
    refine hawaiting.sent_by_tick (hlater.mono fun _ _ h => h.undisturbed.1) hstart
      (hticks.mono fun _ _ h => h.undisturbed) hidle ?_
    rw [hmgr]
    exact hpending

/-- A client asks again, between two ticks, for the entry that it was sent. -/
theorem resume_takes_effect_between_ticks :
    ∃ w called : World, w.step (.setResumeFrom "s" 1) = some called ∧
      w.sent = [⟨"s", ⟨⟨"b", 5⟩, 1⟩, [1]⟩] ∧
      ∃ later middle subs started ticks finish,
        Run World.step (SendsAs fun _ => .delivered) called later middle ∧
        middle.step (.startTick subs) = some started ∧
        Run World.step (SendsAs fun _ => .delivered) started ticks finish ∧ finish.pc = .idle ∧
        ⟨"s", ⟨⟨"b", 5⟩, 1⟩, [1]⟩ ∈
          outputs World.step World.deliveries called (later ++ .startTick subs :: ticks) := by
  obtain ⟨w, hrun, hw⟩ := exists_run_of_check World.step (OrderedWrites "s") (World.init "b" ⟨"b", 5⟩ true)
    (.write "s" ⟨⟨"b", 5⟩, 1⟩ [1] :: .startTick ["s"] :: List.replicate 8 (.tick .delivered))
    (fun w => decide (w.pc = TickPc.idle ∧ w.sent = [⟨"s", ⟨⟨"b", 5⟩, 1⟩, [1]⟩] ∧
      w.mgr.IsPending ⟨"s", ⟨⟨"b", 5⟩, 1⟩, [1]⟩))
    (by decide)
  obtain ⟨hidle, hsent, hpending⟩ := of_decide_eq_true hw
  have hheeded : CallHeeded "s" w (.setResumeFrom "s" 1) :=
    ⟨by rw [hidle]; decide, fun h => absurd h (by decide)⟩
  exact ⟨w, _, rfl, hsent, (resume_takes_effect "b" ⟨"b", 5⟩ true "s" hrun (.setResumeFrom 1) hheeded rfl
    ⟨"s", ⟨⟨"b", 5⟩, 1⟩, [1]⟩ rfl hpending (by decide)).2⟩

/-- Only ticks happen: they start, and their sends succeed or fail. -/
def TicksOnly (_ : World) : Action → Prop
  | .startTick _ => True
  | .tick _ => True
  | _ => False

/-- The notifier will never send the entry: its watermark has reached the entry, or is about to
when the running tick marks the entry it has just sent. -/
structure PassedOver (sub : String) (e : OutboxEntry) (n : Notifier) (pc : TickPc) : Prop where
  watermark : e.seq.position ≤ (n.lastSent sub).position ∨
    ∃ y entries subs lastSent resumeIdx, pc = .sendReturned sub y entries subs lastSent resumeIdx ∧
      lastSent.position < y.seq.position
  held : ∀ mark ∈ pc.marks sub, e.seq.position ≤ mark.position
  sending : ∀ y entries subs lastSent resumeIdx,
    pc = .sending sub y entries subs lastSent resumeIdx → lastSent.position < y.seq.position

section PassedOverRules

variable {sub : String} {e : OutboxEntry} {n : Notifier} {pc : TickPc}

/-- A tick that holds nothing of the subscription cannot bring back what the watermark has reached. -/
theorem PassedOver.of_watermark (hle : e.seq.position ≤ (n.lastSent sub).position)
    (hheld : pc.marks sub = []) : PassedOver sub e n pc where
  watermark := Or.inl hle
  held mark hmark := by
    rw [hheld] at hmark
    cases hmark
  sending y entries subs lastSent resumeIdx heq := by
    subst heq
    simp [TickPc.marks] at hheld

/-- The watermark has reached the entry, except between a send and its mark. -/
theorem PassedOver.lastSent_le (h : PassedOver sub e n pc) (hpc : ∀ y entries subs lastSent resumeIdx,
    pc ≠ .sendReturned sub y entries subs lastSent resumeIdx) :
    e.seq.position ≤ (n.lastSent sub).position := by
  rcases h.watermark with hle | ⟨y, entries, subs, lastSent, resumeIdx, heq, _⟩
  · exact hle
  · exact absurd heq (hpc y entries subs lastSent resumeIdx)

/-- Marking the entry just sent moves the watermark up to what is passed over. -/
theorem PassedOver.markSent {current : String} {y : OutboxEntry} {entries : List OutboxEntry}
    {subs : List String} {lastSent : EmitSeq} {resumeIdx : UInt64}
    (h : PassedOver sub e n (.sendReturned current y entries subs lastSent resumeIdx)) :
    e.seq.position ≤ ((n.markSent current y lastSent).lastSent sub).position := by
  rw [Notifier.lastSent_markSent]
  split
  · next hmarked =>
    obtain ⟨rfl, _⟩ := hmarked
    exact h.held y.seq (by simp [TickPc.marks])
  · next hkept =>
    rcases h.watermark with hle | ⟨_, _, _, _, _, heq, hnewer⟩
    · exact hle
    · cases heq
      exact absurd ⟨rfl, hnewer⟩ hkept

/-- A section of a tick neither sends an entry that is passed over nor brings it back. -/
theorem PassedOver.move {mgr : Manager} {outcome : SendOutcome} {effect : TickEffect}
    (h : PassedOver sub e n pc) (hmove : TickMove n mgr outcome pc effect) :
    PassedOver sub e effect.notifier effect.pc ∧ e.toEvent sub ∉ effect.sent := by
  cases hmove with
  | mark current y entries subs lastSent resumeIdx =>
    exact ⟨.of_watermark h.markSent rfl, List.not_mem_nil⟩
  | read current y entries subs =>
    have hle := h.lastSent_le fun _ _ _ _ _ heq => (by cases heq)
    refine ⟨⟨Or.inl hle, fun mark hmark => ?_, fun _ _ _ _ _ heq => (by cases heq)⟩, List.not_mem_nil⟩
    by_cases hsub : current = sub
    · subst hsub
      simp only [TickPc.marks, if_true, List.mem_singleton] at hmark
      rw [hmark]
      exact hle
    · simp [TickPc.marks, hsub] at hmark
  | choose current y entries subs lastSent hmark hresume =>
    have hle := h.lastSent_le fun _ _ _ _ _ heq => (by cases heq)
    refine ⟨⟨Or.inl hle, h.held, fun _ _ _ _ _ heq => ?_⟩, List.not_mem_nil⟩
    cases heq
    exact hmark
  | send current y entries subs lastSent resumeIdx houtcome =>
    have hle := h.lastSent_le fun _ _ _ _ _ heq => (by cases heq)
    by_cases hsub : current = sub
    · subst hsub
      have hlt : e.seq.position < y.seq.position :=
        lt_of_le_of_lt (h.held lastSent (by simp [TickPc.marks])) (h.sending y entries subs lastSent resumeIdx rfl)
      refine ⟨⟨Or.inl hle, fun mark hmark => ?_, fun _ _ _ _ _ heq => (by cases heq)⟩, fun hmem => ?_⟩
      · simp only [TickPc.marks, if_true, List.mem_singleton] at hmark
        rw [hmark]
        exact hlt.le
      · have hseq : e.seq = y.seq := congrArg DataEvent.emitSeq (List.mem_singleton.mp hmem)
        rw [hseq] at hlt
        exact lt_irrefl _ hlt
    · refine ⟨.of_watermark hle (if_neg hsub), fun hmem => hsub ?_⟩
      exact (congrArg DataEvent.subID (List.mem_singleton.mp hmem)).symm
  | clear current y entries subs resumeIdx =>
    refine ⟨.of_watermark ?_ rfl, List.not_mem_nil⟩
    rw [Notifier.lastSent_clearResume]
    exact h.lastSent_le fun _ _ _ _ _ heq => (by cases heq)
  | _ =>
    exact ⟨.of_watermark (h.lastSent_le fun _ _ _ _ _ heq => (by cases heq)) rfl, List.not_mem_nil⟩

/-- As long as only ticks happen, an entry that is passed over is never sent. -/
theorem PassedOver.never_sent {w finish : World} {actions : List Action}
    (h : PassedOver sub e w.ntf w.pc) (hrun : Run World.step TicksOnly w actions finish) :
    e.toEvent sub ∉ outputs World.step World.deliveries w actions := by
  induction hrun with
  | nil => exact List.not_mem_nil
  | @cons state next _ action rest hallowed hstep _ ih =>
    rw [outputs_cons _ _ hstep, List.mem_append]
    cases World.stepped hstep with
    | tick outcome =>
      obtain ⟨hnext, hnot⟩ := h.move (state.ntf.tickStep_move state.mgr outcome state.pc)
      exact not_or.mpr ⟨hnot, ih hnext⟩
    | startTick subs hidle =>
      refine not_or.mpr ⟨List.not_mem_nil, ih (.of_watermark (h.lastSent_le ?_) rfl)⟩
      intro _ _ _ _ _ heq
      rw [hidle] at heq
      cases heq
    | _ => exact absurd hallowed id

end PassedOverRules

/-- A request that comes after the entry was sent and before it is marked: no later tick sends
the entry again, although it stays pending and the request asked for it. -/
theorem resume_lost_before_mark :
    ∃ w called : World,
      Run World.step (OrderedWrites "s") (World.init "b" ⟨"b", 5⟩ true)
        (.write "s" ⟨⟨"b", 5⟩, 1⟩ [1] :: .startTick ["s"] :: List.replicate 4 (.tick .delivered)) w ∧
      w.step (.setResumeFrom "s" 1) = some called ∧
      called.mgr.IsPending ⟨"s", ⟨⟨"b", 5⟩, 1⟩, [1]⟩ ∧
      ∀ actions finish, Run World.step TicksOnly called actions finish →
        ⟨"s", ⟨⟨"b", 5⟩, 1⟩, [1]⟩ ∉ outputs World.step World.deliveries called actions := by
  obtain ⟨w, hrun, hw⟩ := exists_run_of_check World.step (OrderedWrites "s") (World.init "b" ⟨"b", 5⟩ true)
    (.write "s" ⟨⟨"b", 5⟩, 1⟩ [1] :: .startTick ["s"] :: List.replicate 4 (.tick .delivered))
    (fun w => decide (w.pc = TickPc.sendReturned "s" ⟨"s", ⟨⟨"b", 5⟩, 1⟩, [1]⟩ [] [] .zero 0 ∧
      w.mgr.IsPending ⟨"s", ⟨⟨"b", 5⟩, 1⟩, [1]⟩))
    (by decide)
  obtain ⟨hpc, hpending⟩ := of_decide_eq_true hw
  refine ⟨w, _, hrun, rfl, hpending, fun actions finish hticks => ?_⟩
  let e : OutboxEntry := ⟨"s", ⟨⟨"b", 5⟩, 1⟩, [1]⟩
  have hpassed : PassedOver "s" e (w.ntf.setResumeFrom "s" 1) w.pc := by
    rw [hpc]
    refine ⟨Or.inr ⟨e, [], [], .zero, 0, rfl, by decide⟩, ?_, fun _ _ _ _ _ heq => (by cases heq)⟩
    intro mark hmark
    simp only [TickPc.marks, if_true, List.mem_singleton] at hmark
    rw [hmark]
  exact hpassed.never_sent hticks

end SevenDB.Emission
