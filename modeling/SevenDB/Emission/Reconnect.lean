import SevenDB.Emission.Resumed

/-!
# Reconnecting and resuming

A client that reports its position, is told to go on and has its resume point set between two
ticks resumes exactly there: the entries written above its position, and no others, are sent
once each and in order, and a tick sends all that were written before it started.
-/

namespace SevenDB.Emission

open SevenDB.Common

section Rules

variable {epoch : EpochID} {sub : String} {position before : ℕ} {w next : World} {action : Action}
  {e : OutboxEntry}

/-- Setting the resume point behind the position between two ticks resumes the subscription. -/
theorem Resumed.of_call (h : Account epoch sub position w) (hidle : w.pc = .idle) {nextCommitIdx : UInt64}
    (hnext : nextCommitIdx.toNat = position + 1)
    (hstep : w.step (.setResumeFrom sub nextCommitIdx) = some next) :
    Resumed epoch sub position next.sent.length next := by
  have hany : AccountAllowed epoch sub position w (.setResumeFrom sub nextCommitIdx) := trivial
  have haccount := h.step hany hstep
  have hsince : sentSince sub next.sent.length next = [] := by
    rw [sentSince, List.drop_length]
    rfl
  have hpoint : resumePoint position (sentSince sub next.sent.length next) = position := by
    rw [hsince]
    rfl
  have hnonzero : nextCommitIdx ≠ 0 := by
    rintro rfl
    cases hnext
  have hpc : next.pc = .idle := by
    cases hstep
    exact hidle
  have hlast : next.ntf.lastSent sub = .zero := by
    cases hstep
    rw [Notifier.lastSent_setResumeFrom, if_pos ⟨rfl, hnonzero⟩]
  have hresume : (next.ntf.resumeIdx sub).toNat = position + 1 := by
    cases hstep
    rw [Notifier.resumeIdx_setResumeFrom, if_pos rfl, hnext]
  refine ⟨le_rfl, hpoint.ge, ?_, ?_, ?_, Or.inl ⟨hpoint, hresume⟩⟩
  · rw [hpoint]
    refine ⟨haccount, ?_, ?_, hresume.le⟩
    · rw [hpc]
      exact Queue.nil
    · intro mark hmark
      rw [hpc] at hmark
      rw [List.mem_singleton.mp hmark, hlast]
      exact Or.inl rfl
  · rw [hpoint, hpc]
    intro x _ hle
    exact Or.inr (by omega)
  · rw [hpoint, hsince, eq_comm, List.map_eq_nil_iff, List.filter_eq_nil_iff]
    intro x hx
    have habove := of_decide_eq_true (List.mem_filter.mp hx).2
    simp only [decide_eq_true_eq]
    omega

/-- An entry above the position is ahead of the running tick, or was sent since. -/
structure Coming (epoch : EpochID) (sub : String) (position before : ℕ) (e : OutboxEntry)
    (w : World) : Prop where
  resumed : Resumed epoch sub position before w
  written : e ∈ entriesAbove position sub w.written
  ahead : resumePoint position (sentSince sub before w) < e.index → w.pc.Ahead sub e

/-- Once the resume point has come to an entry above the position, it was sent. -/
theorem Resumed.sent_of_le (h : Resumed epoch sub position before w)
    (he : e ∈ entriesAbove position sub w.written)
    (hle : e.index ≤ resumePoint position (sentSince sub before w)) :
    e.toEvent sub ∈ sentSince sub before w := by
  rw [h.upTo]
  exact List.mem_map_of_mem (List.mem_filter.mpr ⟨he, decide_eq_true hle⟩)

theorem entriesAbove_step (hstep : w.step action = some next) (he : e ∈ entriesAbove position sub w.written) :
    e ∈ entriesAbove position sub next.written := by
  obtain ⟨hlog, habove⟩ := List.mem_filter.mp he
  exact List.mem_filter.mpr ⟨World.mem_written_step hstep hlog, habove⟩

theorem Coming.step (h : Coming epoch sub position before e w)
    (hallowed : ResumedAllowed epoch sub position before w action)
    (hsuccess : SuccessfulTick sub w action) (hstep : w.step action = some next) :
    Coming epoch sub position before e next := by
  have hresumed := h.resumed.step hallowed hstep
  have hwritten := entriesAbove_step hstep h.written
  refine ⟨hresumed, hwritten, fun habove => ?_⟩
  have hkept : action ≠ .replaceNotifier := by
    rintro rfl
    exact hallowed
  obtain ⟨_, hsince⟩ := sentSince_step sub h.resumed.recorded hstep hkept
  have hbefore : resumePoint position (sentSince sub before w) < e.index := by
    by_contra hle
    have hsent := h.resumed.sent_of_le h.written (not_lt.mp hle)
    have hstill : e.toEvent sub ∈ sentSince sub before next := hsince ▸ List.mem_append_left _ hsent
    exact absurd (hresumed.since_le hstill) (not_le.mpr habove)
  have hlog := (List.mem_filter.mp h.written).1
  rcases h.resumed.cursor.ahead_step hsuccess hstep hlog hbefore (h.ahead hbefore) with hstill | hsent
  · exact hstill
  · have hevent : e.toEvent sub ∈ eventsFor sub (w.deliveries action) :=
      List.mem_filter.mpr ⟨hsent, by simp [OutboxEntry.toEvent]⟩
    have hnow : e.toEvent sub ∈ sentSince sub before next := hsince ▸ List.mem_append_right _ hevent
    exact absurd (hresumed.since_le hnow) (not_le.mpr habove)

theorem Coming.start (h : Resumed epoch sub position before w) {subs : List String}
    (hstep : w.step (.startTick subs) = some next) (he : e ∈ entriesAbove position sub w.written) :
    Coming epoch sub position before e next := by
  have hany : ResumedAllowed epoch sub position before w (.startTick subs) := trivial
  refine ⟨h.step hany hstep, entriesAbove_step hstep he, fun habove => ?_⟩
  obtain ⟨_, hsince⟩ := sentSince_step sub h.recorded hstep (by simp)
  have hsame : sentSince sub before next = sentSince sub before w := by
    rw [hsince]
    exact List.append_nil _
  rw [hsame] at habove
  exact h.cursor.ahead_startTick hstep (List.mem_filter.mp he).1 habove

theorem Coming.finish (h : Coming epoch sub position before e w) (hidle : w.pc = .idle) :
    e.toEvent sub ∈ sentSince sub before w := by
  apply h.resumed.sent_of_le h.written
  by_contra habove
  have hahead := h.ahead (not_le.mp habove)
  rw [hidle] at hahead
  exact TickPc.not_ahead_idle sub e hahead

end Rules

/-- A client that is told to go on after its position and resumes there between two ticks is
sent exactly the entries written above the position, once each and in order; nothing above the
position was purged, and every tick sends all entries written before it started. -/
theorem reconnect_resumes_exactly (bucketID : String) (epoch : EpochID) (proposer : Bool) (sub : String)
    {position nextCommitIdx : UInt64} (hposition : position.toNat < 2 ^ 63)
    {first second third : List Action} {asked w called finish : World}
    (hfirst : Run World.step (ReconnectAllowed epoch sub position.toNat)
      (World.init bucketID epoch proposer) first asked)
    (hok : (asked.mgr.reconnect ⟨sub, ⟨epoch, position⟩⟩).status = .ok)
    (hanswer : (asked.mgr.reconnect ⟨sub, ⟨epoch, position⟩⟩).nextCommitIndex = nextCommitIdx)
    (hsecond : Run World.step (ReconnectAllowed epoch sub position.toNat) asked second w)
    (hidle : w.pc = .idle) (hcall : w.step (.setResumeFrom sub nextCommitIdx) = some called)
    (hthird : Run World.step (ResumedAllowed epoch sub position.toNat called.sent.length) called third
      finish) :
    nextCommitIdx.toNat = position.toNat + 1 ∧
    (∀ e ∈ entriesAbove position.toNat sub called.written, called.mgr.IsPending e) ∧
    sentSince sub called.sent.length finish <+:
      (entriesAbove position.toNat sub finish.written).map (fun e => e.toEvent sub) ∧
    ∀ subs started ticks done, finish.step (.startTick subs) = some started →
      Run World.step (fun state action => ResumedAllowed epoch sub position.toNat called.sent.length state
        action ∧ SuccessfulTick sub state action) started ticks done → done.pc = .idle →
      ∀ e ∈ entriesAbove position.toNat sub finish.written,
        e.toEvent sub ∈ sentSince sub called.sent.length done := by
  have hepoch : asked.mgr.currentEpoch = epoch :=
    hfirst.invariant (fun state => state.mgr.currentEpoch = epoch)
      (fun _ _ _ hinv _ hstep => (World.step_currentEpoch hstep).trans hinv) rfl
  have haccount : Account epoch sub position.toNat w :=
    (hfirst.append hsecond).invariant (Account epoch sub position.toNat)
      (fun _ _ _ hinv hallowed hstep => hinv.step hallowed.account hstep)
      (Account.init bucketID epoch proposer)
  have hnext : nextCommitIdx.toNat = position.toNat + 1 := by
    rw [← hanswer, Manager.reconnect_ok _ _ (by rw [hepoch]) hok]
    change (position + 1).toNat = _
    rw [UInt64.toNat_add, UInt64.toNat_one]
    omega
  have hcalled := Resumed.of_call haccount hidle hnext hcall
  have hfinish : Resumed epoch sub position.toNat called.sent.length finish :=
    hthird.invariant _ (fun _ _ _ hinv hallowed hstep => hinv.step hallowed hstep) hcalled
  refine ⟨hnext, ?_, ?_, ?_⟩
  · intro e he
    obtain ⟨hlog, habove⟩ := List.mem_filter.mp he
    have hany : AccountAllowed epoch sub position.toNat w (.setResumeFrom sub nextCommitIdx) := trivial
    exact (haccount.step hany hcall).ledger.retained e hlog (of_decide_eq_true habove)
  · have hincreasing : (entriesAbove position.toNat sub finish.written).Pairwise fun left right =>
        left.index < right.index :=
      hfinish.cursor.ledger.increasing.sublist List.filter_sublist
    rw [hfinish.upTo]
    exact (filter_le_isPrefix (hincreasing.imp le_of_lt) _).map _
  · intro subs started ticks done hstart hticks hdone e he
    have hcoming : Coming epoch sub position.toNat called.sent.length e done :=
      hticks.invariant _ (fun _ _ _ hinv hallowed hstep => hinv.step hallowed.1 hallowed.2 hstep)
        (Coming.start hfinish hstart he)
    exact hcoming.finish hdone

/-- Two entries are sent and the first one is acknowledged; the client reconnects there and is
sent the second one again, and only that one. -/
theorem reconnect_resumes_exactly_second :
    ∃ called finish : World,
      sentSince "s" called.sent.length finish = [⟨"s", ⟨⟨"b", 7⟩, 2⟩, [2]⟩] ∧
      sentSince "s" called.sent.length finish <+:
        (entriesAbove 1 "s" finish.written).map (fun e => e.toEvent "s") := by
  obtain ⟨w, hrun, hw⟩ := exists_run_of_check World.step (ReconnectAllowed ⟨"b", 7⟩ "s" 1)
    (World.init "b" ⟨"b", 7⟩ true)
    (.write "s" ⟨⟨"b", 7⟩, 1⟩ [1] :: .write "s" ⟨⟨"b", 7⟩, 2⟩ [2] :: .startTick ["s"] ::
      List.replicate 13 (.tick .delivered) ++ [.ack ⟨"s", ⟨⟨"b", 7⟩, 1⟩⟩, .takeAck])
    (fun w => decide (w.pc = TickPc.idle ∧ (w.mgr.reconnect ⟨"s", ⟨⟨"b", 7⟩, 1⟩⟩).status = .ok ∧
        (w.mgr.reconnect ⟨"s", ⟨⟨"b", 7⟩, 1⟩⟩).nextCommitIndex = 2) &&
      (w.step (.setResumeFrom "s" 2)).any fun called : World =>
        (runChecked World.step (ResumedAllowed ⟨"b", 7⟩ "s" 1 called.sent.length) called
          (.startTick ["s"] :: List.replicate 10 (.tick .delivered))).any fun finish : World =>
          decide (sentSince "s" called.sent.length finish = [⟨"s", ⟨⟨"b", 7⟩, 2⟩, [2]⟩]))
    (by decide)
  rw [Bool.and_eq_true, decide_eq_true_eq, Option.any_eq_true] at hw
  obtain ⟨⟨hidle, hok, hanswer⟩, called, hcall, hthird⟩ := hw
  obtain ⟨finish, hfinish, hend⟩ := exists_run_of_check _ _ _ _ _ hthird
  have hposition : (1 : UInt64).toNat < 2 ^ 63 := by decide
  have hresult := reconnect_resumes_exactly "b" ⟨"b", 7⟩ true "s" hposition hrun hok hanswer (.nil w) hidle
    hcall hfinish
  exact ⟨called, finish, of_decide_eq_true hend, hresult.2.2.1⟩

end SevenDB.Emission
