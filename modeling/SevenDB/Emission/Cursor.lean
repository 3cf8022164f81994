import SevenDB.Emission.Account

/-!
# The cursor of a subscription

The state of the system as seen from a subscription that has come up to a limit: account and
queue hold at the limit, and every watermark and resume point in use is at or below it. Each
step keeps the cursor as long as the events that go out stay within the limit, so a limit that
follows the events sent is never overtaken.
-/

namespace SevenDB.Emission

/-- The state of the system as seen from a subscription that has come up to the limit. -/
structure Cursor (epoch : EpochID) (sub : String) (limit : ℕ) (w : World) : Prop extends
    Account epoch sub limit w where
  queue : Queue sub limit w.written (w.pc.todo sub)
  marks : ∀ mark ∈ w.ntf.marks w.pc sub, mark.Behind epoch limit
  resume : (w.ntf.resumeIdx sub).toNat ≤ limit + 1

section CursorRules

variable {epoch : EpochID} {sub : String} {limit limit' : ℕ} {w next : World} {action : Action}

theorem Cursor.init (bucketID : String) (current : EpochID) (proposer : Bool) :
    Cursor epoch sub limit (World.init bucketID current proposer) where
  toAccount := Account.init bucketID current proposer
  queue := Queue.nil
  marks _ hmark := Or.inl (List.mem_singleton.mp hmark)
  resume := Nat.zero_le _

section

variable (h : Cursor epoch sub limit w)
include h

theorem Cursor.skipped {e : OutboxEntry}
    (he : e ∈ entriesFor sub w.written) (hskip : w.ntf.Skips w.pc sub e) : e.index ≤ limit := by
  rcases hskip with ⟨mark, hmark, hle⟩ | hbelow
  · exact (h.marks mark hmark).index_le (h.ledger.inEpoch e he) hle
  · have hresume := h.resume
    omega

/-- The entries to come to form a queue at every limit that covers the events sent. -/
theorem Cursor.queue_step (hallowed : AccountAllowed epoch sub limit w action)
    (hstep : w.step action = some next) (hlimit : limit ≤ limit')
    (hnews : ∀ event ∈ w.news action, event.subID = sub → event.emitSeq.index ≤ limit') :
    Queue sub limit' next.written (next.pc.todo sub) := by
  have htodo : Queue sub limit' w.written (next.pc.todo sub) := by
    rcases World.step_todo hstep sub with hsame | hnil | hpending | ⟨e, hhead, hwhy⟩
    · rw [hsame]
      exact h.queue.raise hlimit
    · rw [hnil]
      exact Queue.nil
    · rw [hpending]
      exact (h.ledger.raise hlimit).queue
    · have hqueue := h.queue.raise hlimit
      rw [hhead] at hqueue
      apply hqueue.tail
      rcases hwhy with hsent | hskip
      · exact hnews _ (w.deliveries_news action hsent) rfl
      · exact (h.skipped (hqueue.fromLog e List.mem_cons_self) hskip).trans hlimit
  rcases World.step_written hstep sub with hsame | ⟨seq, delta, rfl, hnew⟩
  · exact htodo.congr hsame
  · exact htodo.write hnew (hallowed rfl).2.2

/-- Every allowed step keeps the cursor at a limit that covers the events it sends, unless it
sets the resume point of the subscription. -/
theorem Cursor.step (hallowed : AccountAllowed epoch sub limit w action)
    (hresume : ∀ nextCommitIdx, action ≠ .setResumeFrom sub nextCommitIdx)
    (hstep : w.step action = some next) (hlimit : limit ≤ limit')
    (hnews : ∀ event ∈ w.news action, event.subID = sub → event.emitSeq.index ≤ limit') :
    Cursor epoch sub limit' next where
  toAccount := (h.toAccount.step hallowed hstep).raise hlimit
  queue := h.queue_step hallowed hstep hlimit hnews
  marks mark hmark := by
    cases World.step_marks hstep hmark with
    | kept hold => exact (h.marks mark hold).raise hlimit
    | deleted => exact Or.inl rfl
    | sent e rest htodo hsent =>
      have he := h.queue.fromLog e (htodo ▸ List.mem_cons_self)
      exact Or.inr ⟨h.ledger.inEpoch e he, hnews _ (w.deliveries_news action hsent) rfl⟩
    | acked ack rest hqueue _ hsub =>
      exact (h.queued ack (hqueue ▸ List.mem_cons_self) hsub).raise hlimit
  resume := by
    have hbefore := h.resume
    rcases World.step_resumeIdx hstep sub with hsame | ⟨hzero, _⟩ | hset
    · rw [hsame]
      omega
    · rw [hzero]
      exact Nat.zero_le _
    · exact absurd hset (hresume _)

/-- A section of a tick keeps the cursor at a limit that covers the events it sends. -/
theorem Cursor.tick {outcome : SendOutcome}
    (hstep : w.step (.tick outcome) = some next) (hlimit : limit ≤ limit')
    (hnews : ∀ event ∈ w.news (.tick outcome), event.subID = sub → event.emitSeq.index ≤ limit') :
    Cursor epoch sub limit' next := by
  have hany : AccountAllowed epoch sub limit w (.tick outcome) := trivial
  exact h.step hany (fun _ heq => (by cases heq)) hstep hlimit hnews

/-- With successful sends, an entry above the limit stays ahead of the tick until it is sent. -/
theorem Cursor.ahead_step (hallowed : SuccessfulTick sub w action)
    (hstep : w.step action = some next) {e : OutboxEntry} (he : e ∈ entriesFor sub w.written)
    (habove : limit < e.index) (hahead : w.pc.Ahead sub e) :
    next.pc.Ahead sub e ∨ e.toEvent sub ∈ w.deliveries action := by
  have hpending : e ∈ w.mgr.pending sub :=
    (w.mgr.mem_pending_iff sub e).mpr ⟨(mem_entriesFor.mp he).2, h.ledger.retained e he habove⟩
  rcases World.step_ahead hstep hallowed hpending hahead with hstill | hsent | hskip
  · exact Or.inl hstill
  · exact Or.inr hsent
  · exact absurd (h.skipped he hskip) (not_le.mpr habove)

theorem Cursor.ahead_startTick {subs : List String}
    (hstep : w.step (.startTick subs) = some next) {e : OutboxEntry}
    (he : e ∈ entriesFor sub w.written) (habove : limit < e.index) : next.pc.Ahead sub e := by
  have hsub := (mem_entriesFor.mp he).2
  exact hsub ▸ World.ahead_startTick hstep (h.ledger.retained e he habove)

end

end CursorRules

end SevenDB.Emission
