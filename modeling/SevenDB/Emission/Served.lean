import SevenDB.Emission.Due

/-!
# No pending entry is skipped

After a tick whose sends for a subscription all succeeded, the entries that were pending when
it started and still are have been sent by this notifier, lie below a resume point that was
asked for, or are at or before an accepted acknowledgment. This needs writes in one order of
indices and epochs; without it an entry of an older epoch is passed over for ever.
-/

namespace SevenDB.Emission

open SevenDB.Common

/-- The entry was sent by this notifier, or a client asked for later ones, or it was
acknowledged. -/
def Settled (sub : String) (w : World) (e : OutboxEntry) : Prop :=
  e.toEvent sub ∈ w.sent ∨
    (∃ request ∈ w.resumes, request.1 = sub ∧ e.index < request.2.toNat) ∨
    ∃ ack ∈ w.accepted, ack.subID = sub ∧ e.seq.position ≤ ack.emitSeq.position

instance (sub : String) (w : World) (e : OutboxEntry) : Decidable (Settled sub w e) := by
  unfold Settled
  infer_instance

/-- Every pending entry of the subscription is settled or due, and every watermark and resume
point in use has an origin in the history. -/
structure Served (sub : String) (w : World) : Prop where
  lineup : Lineup sub w
  markOrigin : ∀ mark ∈ w.ntf.marks w.pc sub, mark = .zero ∨
    (∃ e ∈ entriesFor sub w.written, mark = e.seq) ∨
    ∃ ack ∈ w.accepted, ack.subID = sub ∧ mark = ack.emitSeq
  resumeOrigin : w.ntf.resumeIdx sub = 0 ∨ (sub, w.ntf.resumeIdx sub) ∈ w.resumes
  served : ∀ e : OutboxEntry, e.subID = sub → w.mgr.IsPending e → Settled sub w e ∨ Due sub w e

section Rules

variable {sub : String} {w next : World} {action : Action} {e : OutboxEntry}

theorem Served.init (bucketID : String) (current : EpochID) (proposer : Bool) :
    Served sub (World.init bucketID current proposer) where
  lineup := Lineup.init bucketID current proposer
  markOrigin mark hmark := Or.inl (List.mem_singleton.mp hmark)
  resumeOrigin := Or.inl rfl
  served e _ hpending := by cases hpending

theorem Settled.step (h : Settled sub w e) (hstep : w.step action = some next) :
    action = .replaceNotifier ∨ Settled sub next e := by
  rcases h with hsent | ⟨request, hrequest, hbelow⟩ | ⟨ack, hack, hle⟩
  · refine (World.step_sent hstep).imp_right fun heq => Or.inl ?_
    rw [heq]
    exact List.mem_append_left _ hsent
  · exact Or.inr (Or.inr (Or.inl ⟨request, World.mem_resumes_step hstep hrequest, hbelow⟩))
  · exact Or.inr (Or.inr (Or.inr ⟨ack, World.mem_accepted_step hstep hack, hle⟩))

theorem Resolved.settled (h : Resolved sub e w next action) (hstep : w.step action = some next) :
    Settled sub next e := by
  cases h with
  | sent outcome hsent =>
    rcases World.step_sent hstep with hreplaced | heq
    · cases hreplaced
    · exact Or.inl (heq ▸ List.mem_append_right _ hsent)
  | acked ack rest hqueue haccepted hsub hle => exact Or.inr (Or.inr ⟨ack, haccepted, hsub, hle⟩)
  | passed nextCommitIdx hbelow =>
    cases hstep
    exact Or.inr (Or.inl ⟨(sub, nextCommitIdx),
      List.mem_append_right _ (List.mem_singleton_self _), rfl, hbelow⟩)

theorem Served.written (h : Served sub w) {seq : EmitSeq} {delta : List UInt8}
    (hallowed : OrderedWrites sub w (.write sub seq delta))
    (hstep : w.step (.write sub seq delta) = some next) :
    Settled sub next ⟨sub, seq, delta⟩ ∨ Due sub next ⟨sub, seq, delta⟩ := by
  cases hstep
  by_cases hacked : ∃ ack ∈ w.accepted, ack.subID = sub ∧ seq.position ≤ ack.emitSeq.position
  · exact Or.inl (Or.inr (Or.inr hacked))
  by_cases hbelow : ∃ request ∈ w.resumes, request.1 = sub ∧ seq.index < request.2.toNat
  · exact Or.inl (Or.inr (Or.inl hbelow))
  refine Or.inr ⟨?_, ?_, Or.inr ?_⟩
  · intro mark hmark
    rcases h.markOrigin mark hmark with rfl | ⟨e, he, rfl⟩ | ⟨ack, hack, hsub, rfl⟩
    · exact (hallowed rfl).1
    · exact hallowed.position_lt he
    · exact not_le.mp fun hle => hacked ⟨ack, hack, hsub, hle⟩
  · rcases h.resumeOrigin with hzero | hrequest
    · change (w.ntf.resumeIdx sub).toNat ≤ _
      rw [hzero]
      exact Nat.zero_le _
    · exact not_lt.mp fun hlt => hbelow ⟨_, hrequest, rfl, hlt⟩
  · intro y hy
    exact hallowed.position_lt (h.lineup.todoFromLog y hy)

theorem Served.markOrigin_step (h : Served sub w) (hstep : w.step action = some next) {mark : EmitSeq}
    (hmark : mark ∈ next.ntf.marks next.pc sub) : mark = .zero ∨
      (∃ e ∈ entriesFor sub next.written, mark = e.seq) ∨
      ∃ ack ∈ next.accepted, ack.subID = sub ∧ mark = ack.emitSeq := by
  cases World.step_marks hstep hmark with
  | kept hold =>
    rcases h.markOrigin mark hold with hzero | ⟨e, he, heq⟩ | ⟨ack, hack, hsub, heq⟩
    · exact Or.inl hzero
    · exact Or.inr (Or.inl ⟨e, World.mem_written_step hstep he, heq⟩)
    · exact Or.inr (Or.inr ⟨ack, World.mem_accepted_step hstep hack, hsub, heq⟩)
  | deleted => exact Or.inl rfl
  | sent e rest htodo _ =>
    have he := h.lineup.todoFromLog e (htodo ▸ List.mem_cons_self)
    exact Or.inr (Or.inl ⟨e, World.mem_written_step hstep he, rfl⟩)
  | acked ack rest _ haccepted hsub => exact Or.inr (Or.inr ⟨ack, haccepted, hsub, rfl⟩)

theorem Served.resumeOrigin_step (h : Served sub w) (hstep : w.step action = some next) :
    next.ntf.resumeIdx sub = 0 ∨ (sub, next.ntf.resumeIdx sub) ∈ next.resumes := by
  rcases World.step_resumeIdx hstep sub with hsame | ⟨hzero, _⟩ | hset
  · rw [hsame]
    exact h.resumeOrigin.imp_right fun hrequest => World.mem_resumes_step hstep hrequest
  · exact Or.inl hzero
  · refine Or.inr ?_
    generalize next.ntf.resumeIdx sub = nextCommitIdx at hset ⊢
    subst hset
    cases hstep
    exact List.mem_append_right _ (List.mem_singleton_self _)

/-- Every step with writes in order keeps all pending entries settled or due. -/
theorem Served.step (h : Served sub w) (hallowed : OrderedWrites sub w action)
    (hstep : w.step action = some next) : Served sub next := by
  refine ⟨h.lineup.step hallowed hstep, fun mark hmark => h.markOrigin_step hstep hmark,
    h.resumeOrigin_step hstep, ?_⟩
  intro e hsub hpending
  rcases World.step_pending hstep hpending with hbefore | heq
  · have hzero := h.lineup.positive e (h.lineup.fromLog e hsub hbefore)
    rcases h.served e hsub hbefore with hsettled | hdue
    · rcases hsettled.step hstep with hreplaced | hstill
      · subst hreplaced
        cases hstep
        exact Or.inr (Due.of_idle hzero (Nat.zero_le _) rfl rfl)
      · exact Or.inl hstill
    · rcases hdue.step h.lineup hsub hbefore hstep with hstill | hresolved
      · exact Or.inr hstill
      · exact Or.inl (hresolved.settled hstep)
  · subst hsub
    subst heq
    exact h.written hallowed hstep

/-- In a tick with successful sends a due entry stays ahead of the tick until it is resolved. -/
theorem Due.ahead_step (h : Due sub w e) (hline : Lineup sub w) (hsub : e.subID = sub)
    (hpending : w.mgr.IsPending e) (hahead : w.pc.Ahead sub e) (hallowed : SuccessfulTick sub w action)
    (hstep : w.step action = some next) :
    (Due sub next e ∧ next.pc.Ahead sub e) ∨ Resolved sub e w next action := by
  rcases h.step hline hsub hpending hstep with hdue | hresolved
  · have hmem := (w.mgr.mem_pending_iff sub e).mpr ⟨hsub, hpending⟩
    rcases World.step_ahead hstep hallowed hmem hahead with hstill | hsent | hskip
    · exact Or.inl ⟨hdue, hstill⟩
    · exact Or.inr (.of_deliveries hsent)
    · exact absurd hskip h.not_skipped
  · exact Or.inr hresolved

theorem OrderedWrites.not_again (hallowed : OrderedWrites sub w action)
    (hwritten : e ∈ entriesFor sub w.written) : action ≠ .write e.subID e.seq e.delta := by
  rintro rfl
  have hsub := (mem_entriesFor.mp hwritten).2
  exact absurd ((hallowed hsub).2.2 e hwritten).1 (lt_irrefl _)

/-- What a tick with successful sends does for one entry that was pending when it started. -/
structure Serving (sub : String) (e : OutboxEntry) (w : World) : Prop where
  served : Served sub w
  written : e ∈ entriesFor sub w.written
  ahead : w.mgr.IsPending e → Settled sub w e ∨ (Due sub w e ∧ w.pc.Ahead sub e)

/-- When a tick starts, every pending entry of the subscription is ahead of it. -/
theorem Serving.start (h : Served sub w) {subs : List String} (hstep : w.step (.startTick subs) = some next)
    (hsub : e.subID = sub) (hpending : w.mgr.IsPending e) : Serving sub e next := by
  have hnone : OrderedWrites sub w (.startTick subs) := trivial
  have hnext := h.step hnone hstep
  have hwritten := World.mem_written_step hstep (h.lineup.fromLog e hsub hpending)
  refine ⟨hnext, hwritten, fun hstill => ?_⟩
  refine (hnext.served e hsub hstill).imp_right fun hdue => ⟨hdue, ?_⟩
  exact hsub ▸ World.ahead_startTick hstep hpending

theorem Serving.step (h : Serving sub e w) (hordered : OrderedWrites sub w action)
    (hallowed : SuccessfulTick sub w action) (hstep : w.step action = some next) :
    Serving sub e next := by
  have hsub := (mem_entriesFor.mp h.written).2
  refine ⟨h.served.step hordered hstep, World.mem_written_step hstep h.written, fun hpending => ?_⟩
  have hbefore : w.mgr.IsPending e :=
    (World.step_pending hstep hpending).resolve_right (hordered.not_again h.written)
  rcases h.ahead hbefore with hsettled | ⟨hdue, hahead⟩
  · rcases hsettled.step hstep with rfl | hstill
    · exact absurd hallowed id
    · exact Or.inl hstill
  · rcases hdue.ahead_step h.served.lineup hsub hbefore hahead hallowed hstep with hstill | hresolved
    · exact Or.inr hstill
    · exact Or.inl (hresolved.settled hstep)

/-- When the tick has ended, the entry is settled or no longer pending. -/
theorem Serving.finish (h : Serving sub e w) (hidle : w.pc = .idle) (hpending : w.mgr.IsPending e) :
    Settled sub w e := by
  rcases h.ahead hpending with hsettled | ⟨_, hahead⟩
  · exact hsettled
  · rw [hidle] at hahead
    exact absurd hahead (TickPc.not_ahead_idle sub e)

end Rules

/-- With writes in order, a tick whose sends for the subscription succeed settles every entry
that was pending when it started and still is. -/
theorem pending_settled_after_tick (bucketID : String) (epoch : EpochID) (proposer : Bool) (sub : String)
    {actions tickActions : List Action} {subs : List String} {w started finish : World}
    (hrun : Run World.step (OrderedWrites sub) (World.init bucketID epoch proposer) actions w)
    (hstart : w.step (.startTick subs) = some started)
    (htick : Run World.step (fun state action => OrderedWrites sub state action ∧
      SuccessfulTick sub state action) started tickActions finish)
    (hidle : finish.pc = .idle) (e : OutboxEntry) (hsub : e.subID = sub)
    (hbefore : w.mgr.IsPending e) (hafter : finish.mgr.IsPending e) : Settled sub finish e := by
  have hserved : Served sub w :=
    hrun.invariant (Served sub) (fun _ _ _ hinv hallowed hstep => hinv.step hallowed hstep)
      (Served.init bucketID epoch proposer)
  have hfinish : Serving sub e finish :=
    htick.invariant (Serving sub e)
      (fun _ _ _ hinv hallowed hstep => hinv.step hallowed.1 hallowed.2 hstep)
      (Serving.start hserved hstart hsub hbefore)
  exact hfinish.finish hidle hafter

/-- Two entries in order and a tick that sends them both: the second one is settled. -/
theorem pending_settled_after_tick_both :
    ∃ finish : World, finish.pc = .idle ∧ Settled "s" finish ⟨"s", ⟨⟨"b", 5⟩, 2⟩, [2]⟩ := by
  obtain ⟨w, started, finish, hrun, hpending, hstart, hfinish, hend⟩ :=
    exists_runs_of_check World.step (OrderedWrites "s")
      (fun state action => OrderedWrites "s" state action ∧ SuccessfulTick "s" state action)
      (World.init "b" ⟨"b", 5⟩ true)
      [.write "s" ⟨⟨"b", 3⟩, 1⟩ [1], .write "s" ⟨⟨"b", 5⟩, 2⟩ [2]] (.startTick ["s"])
      (List.replicate 13 (.tick .delivered))
      (fun w => decide (w.mgr.IsPending ⟨"s", ⟨⟨"b", 5⟩, 2⟩, [2]⟩))
      (fun finish => decide (finish.pc = TickPc.idle ∧ finish.mgr.IsPending ⟨"s", ⟨⟨"b", 5⟩, 2⟩, [2]⟩))
      (by decide)
  obtain ⟨hidle, hstill⟩ := of_decide_eq_true hend
  exact ⟨finish, hidle, pending_settled_after_tick "b" ⟨"b", 5⟩ true "s" hrun hstart hfinish hidle _ rfl
    (of_decide_eq_true hpending) hstill⟩

/-- An entry of an older epoch at a later index: the first entry moves the watermark to the
newer epoch, so the second one is passed over although nothing settles it. -/
theorem older_epoch_passed_over :
    ∃ w started finish : World,
      Run World.step (fun _ _ => True) (World.init "b" ⟨"b", 5⟩ true)
        [.write "s" ⟨⟨"b", 5⟩, 1⟩ [1], .write "s" ⟨⟨"b", 3⟩, 2⟩ [2]] w ∧
      w.step (.startTick ["s"]) = some started ∧
      Run World.step (SuccessfulTick "s") started (List.replicate 10 (.tick .delivered)) finish ∧
      finish.pc = .idle ∧ w.mgr.IsPending ⟨"s", ⟨⟨"b", 3⟩, 2⟩, [2]⟩ ∧
      finish.mgr.IsPending ⟨"s", ⟨⟨"b", 3⟩, 2⟩, [2]⟩ ∧ ¬ Settled "s" finish ⟨"s", ⟨⟨"b", 3⟩, 2⟩, [2]⟩ := by
  obtain ⟨w, started, finish, hrun, hpending, hstart, hfinish, hend⟩ :=
    exists_runs_of_check World.step (fun _ _ => True) (SuccessfulTick "s") (World.init "b" ⟨"b", 5⟩ true)
      [.write "s" ⟨⟨"b", 5⟩, 1⟩ [1], .write "s" ⟨⟨"b", 3⟩, 2⟩ [2]] (.startTick ["s"])
      (List.replicate 10 (.tick .delivered))
      (fun w => decide (w.mgr.IsPending ⟨"s", ⟨⟨"b", 3⟩, 2⟩, [2]⟩))
      (fun finish => decide (finish.pc = TickPc.idle ∧ finish.mgr.IsPending ⟨"s", ⟨⟨"b", 3⟩, 2⟩, [2]⟩ ∧
        ¬ Settled "s" finish ⟨"s", ⟨⟨"b", 3⟩, 2⟩, [2]⟩))
      (by decide)
  obtain ⟨hidle, hstill, hnot⟩ := of_decide_eq_true hend
  exact ⟨w, started, finish, hrun, hstart, hfinish, hidle, of_decide_eq_true hpending, hstill, hnot⟩

end SevenDB.Emission
