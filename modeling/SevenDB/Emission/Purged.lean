import Mathlib.Data.List.Nodup
import SevenDB.Emission.ReboundReplica

/-!
# Purged entries and the applier behind the handler

When the applier repeats a write whose entry is still pending, the write changes nothing, and
an entry that a purge has reached never comes back. When the entry was purged or renamed in the
meantime, the repeated write creates it again under the name that the log has for it.
-/

namespace SevenDB.Emission

open SevenDB.Common

/-- What is pending on a replica was written by its handler and has its present name, and the
handler has written what the log has up to its place. -/
structure Replica.Tracked (log : List OutboxRecord) (r : Replica) : Prop where
  pending : ∀ x, r.chase.state.IsPending x → x ∈ r.written
  seqs : r.written.map OutboxEntry.seq =
    (writtenEntries (log.take r.chase.ahead)).map OutboxEntry.seq

theorem Replica.Tracked.init (log : List OutboxRecord) (bucketID : String) :
    (Replica.init bucketID).Tracked log where
  pending := by
    intro x hx
    cases hx
  seqs := rfl

variable {log : List OutboxRecord} {a : Applier} {r s : Replica} {action : ReplicaAction}

theorem writtenEntries_take {n : ℕ} {record : OutboxRecord} {op : OutboxOp} (hrecord : log[n]? = some record)
    (hop : record.payload.op = some op) :
    writtenEntries (log.take (n + 1)) = writtenEntries (log.take n) ++ op.entry?.toList := by
  rw [List.take_add_one, hrecord, writtenEntries, Option.toList_some, List.filterMap_append]
  congr 1
  rw [List.filterMap_cons, hop, Option.bind_some, List.filterMap_nil]
  cases op.entry? <;> rfl

theorem Replica.Tracked.step (h : r.Tracked log) (hallowed : RepeatsPending log r action)
    (hstep : r.step a log action = some s) : s.Tracked log := by
  match action with
  | .turn .lead =>
    obtain ⟨record, op, hrecord, hop, _, rfl⟩ := Replica.step_lead hstep
    refine ⟨fun x hx => ?_, ?_⟩
    · rcases Manager.isPending_applyOp hx with hbefore | hwritten
      · exact List.mem_append_left _ (h.pending x hbefore)
      · exact List.mem_append_right _ (Option.mem_toList.mpr hwritten)
    · rw [writtenEntries_take hrecord hop, List.map_append, List.map_append, h.seqs]
  | .turn (.follow circumstance) =>
    obtain ⟨op, hnext, rfl⟩ := Replica.step_follow hstep
    refine ⟨fun x hx => ?_, h.seqs⟩
    rcases Manager.isPending_applyOp hx with hbefore | hwritten
    · exact h.pending x hbefore
    · apply h.pending
      apply hallowed
      rw [hnext]
      exact hwritten
  | .rebind order fp oldClientID newClientID =>
    obtain ⟨hahead, result, hresult, hstate, hwritten⟩ := Replica.step_rebind hstep
    refine ⟨fun x hx => ?_, ?_⟩
    · rw [hstate] at hx
      obtain ⟨y, hy, rfl⟩ := Manager.isPending_rebind hresult hx
      rw [hwritten]
      exact List.mem_map_of_mem (h.pending y hy)
    · rw [hwritten, hahead, ← h.seqs, List.map_map]
      congr 1
      funext entry
      exact result.seq_rename entry

/-- A sequence was written and nothing that has it is pending. -/
structure Replica.Gone (log : List OutboxRecord) (seq : EmitSeq) (r : Replica) : Prop where
  tracked : r.Tracked log
  written : seq ∈ r.written.map OutboxEntry.seq
  absent : ∀ x, r.chase.state.IsPending x → x.seq ≠ seq

theorem Replica.Tracked.nodup (h : r.Tracked log) (hfresh : FreshSequences log) :
    (r.written.map OutboxEntry.seq).Nodup := by
  rw [h.seqs]
  have hsplit := List.take_append_drop r.chase.ahead log
  rw [FreshSequences, ← hsplit, writtenEntries, List.filterMap_append, List.map_append] at hfresh
  exact hfresh.of_append_left

/-- Applying a purge that covers an entry leaves nothing pending with its sequence. -/
theorem Replica.Tracked.purged {entry : OutboxEntry} (h : r.Tracked log) (hfresh : FreshSequences log)
    (hallowed : RepeatsPending log r action) (hpurge : r.Purges log action entry)
    (hstep : r.step a log action = some s) : s.Gone log entry.seq := by
  obtain ⟨hentry, upTo, hnext, hcovered⟩ := hpurge
  have hsame (x : OutboxEntry) (hx : (r.chase.state.applyOp (.purge entry.subID upTo)).IsPending x) :
      x.seq ≠ entry.seq := by
    intro hseq
    rw [Manager.applyOp, Manager.isPending_applyOutboxPurge] at hx
    have heq := List.inj_on_of_nodup_map (h.nodup hfresh) (h.pending x hx.1) hentry hseq
    subst heq
    exact absurd (hx.2 rfl) (not_lt.mpr hcovered)
  have htracked := h.step hallowed hstep
  cases action with
  | turn turn =>
    cases turn with
    | lead =>
      obtain ⟨record, op, _, _, hop, rfl⟩ := Replica.step_lead hstep
      cases hnext.symm.trans hop
      refine ⟨htracked, ?_, hsame⟩
      rw [List.map_append]
      exact List.mem_append_left _ (List.mem_map_of_mem hentry)
    | follow circumstance =>
      obtain ⟨op, hop, rfl⟩ := Replica.step_follow hstep
      cases hnext.symm.trans hop
      exact ⟨htracked, List.mem_map_of_mem hentry, hsame⟩
  | rebind order fp oldClientID newClientID => cases hnext

theorem Replica.Gone.step {seq : EmitSeq} (h : r.Gone log seq) (hfresh : FreshSequences log)
    (hallowed : RepeatsPending log r action) (hstep : r.step a log action = some s) : s.Gone log seq := by
  have htracked := h.tracked.step hallowed hstep
  match action with
  | .turn .lead =>
    have hnodup := htracked.nodup hfresh
    obtain ⟨record, op, _, _, _, rfl⟩ := Replica.step_lead hstep
    rw [List.map_append] at hnodup
    refine ⟨htracked, ?_, fun x hx => ?_⟩
    · rw [List.map_append]
      exact List.mem_append_left _ h.written
    · rcases Manager.isPending_applyOp hx with hbefore | hwritten
      · exact h.absent x hbefore
      · intro hseq
        apply (List.disjoint_of_nodup_append hnodup) h.written
        rw [← hseq]
        exact List.mem_map_of_mem (Option.mem_toList.mpr hwritten)
  | .turn (.follow circumstance) =>
    obtain ⟨op, hnext, rfl⟩ := Replica.step_follow hstep
    refine ⟨htracked, h.written, fun x hx => ?_⟩
    rcases Manager.isPending_applyOp hx with hbefore | hwritten
    · exact h.absent x hbefore
    · apply h.absent
      apply hallowed
      rw [hnext]
      exact hwritten
  | .rebind order fp oldClientID newClientID =>
    obtain ⟨_, result, hresult, hstate, hwritten⟩ := Replica.step_rebind hstep
    refine ⟨htracked, ?_, fun x hx => ?_⟩
    · obtain ⟨entry, hentry, hseq⟩ := List.mem_map.mp h.written
      rw [hwritten, ← hseq, ← result.seq_rename entry]
      exact List.mem_map_of_mem (List.mem_map_of_mem hentry)
    · rw [hstate] at hx
      obtain ⟨y, hy, rfl⟩ := Manager.isPending_rebind hresult hx
      rw [result.seq_rename]
      exact h.absent y hy

/-- While the applier repeats only writes whose entries are still pending, an entry that an
applied purge covers is never pending again, under any name. -/
theorem purged_stays_purged (a : Applier) (bucketID : String) {log : List OutboxRecord}
    (hfresh : FreshSequences log) {before after : List ReplicaAction} {action : ReplicaAction}
    {r s t : Replica} {entry : OutboxEntry}
    (hbefore : Run (Replica.step a log) (RepeatsPending log) (.init bucketID) before r)
    (hallowed : RepeatsPending log r action) (hstep : r.step a log action = some s)
    (hpurge : r.Purges log action entry)
    (hafter : Run (Replica.step a log) (RepeatsPending log) s after t) (sub : String) :
    ∀ x ∈ t.chase.state.pending sub, x.seq ≠ entry.seq := by
  have htracked : r.Tracked log :=
    hbefore.invariant (Replica.Tracked log) (fun _ _ _ h hallow hnext => h.step hallow hnext) (.init log bucketID)
  have hgone : t.Gone log entry.seq :=
    hafter.invariant (Replica.Gone log entry.seq) (fun _ _ _ h hallow hnext => h.step hfresh hallow hnext)
      (htracked.purged hfresh hallowed hpurge hstep)
  intro x hx
  exact hgone.absent x ((t.chase.state.mem_pending_iff sub x).mp hx).2

/-- The log of one entry that is written for a client and purged for the client that took over. -/
def takeoverLog : List OutboxRecord :=
  [⟨⟨.outboxWrite, ["o:1", "b", "7", "5", "x"]⟩, by decide⟩, ⟨⟨.outboxPurge, ["n:1", "b", "7", "5"]⟩, by decide⟩]

def takeoverEntry (sub : String) : OutboxEntry := ⟨sub, ⟨⟨"b", 7⟩, 5⟩, textBytes "x"⟩

/-- The applier repeats the write before the subscription is rebound, and the purge after it. -/
theorem purged_stays_purged_repeated :
    ∃ t : Replica, t.chase.behind = 2 ∧ ∀ sub, ∀ x ∈ t.chase.state.pending sub, x.seq ≠ ⟨⟨"b", 7⟩, 5⟩ := by
  obtain ⟨r, s, t, hbefore, hr, hstep, hafter, ht⟩ :=
    exists_runs_of_check (Replica.step ⟨⟨"b", 7⟩⟩ takeoverLog) (RepeatsPending takeoverLog)
      (RepeatsPending takeoverLog) (.init "b")
      [.turn .lead, .turn (.follow (true, 1)), .rebind ⟨["o:1"], [], []⟩ 1 "o" "n"] (.turn .lead)
      [.turn (.follow (true, 2))]
      (fun r : Replica => decide (takeoverEntry "n:1" ∈ r.written ∧
        r.nextOp takeoverLog (.turn .lead) = some (.purge "n:1" ⟨⟨"b", 7⟩, 5⟩)))
      (fun t : Replica => decide (t.chase.behind = 2)) (by decide)
  obtain ⟨hwritten, hnext⟩ := of_decide_eq_true hr
  refine ⟨t, of_decide_eq_true ht, ?_⟩
  have hlead : RepeatsPending takeoverLog r (.turn .lead) := trivial
  exact purged_stays_purged ⟨⟨"b", 7⟩⟩ "b" (by decide) hbefore hlead hstep
    ⟨hwritten, ⟨⟨"b", 7⟩, 5⟩, hnext, le_rfl⟩ hafter

/-- The applier repeats the write after the entry was rebound and purged: when both consumers are
through, the entry is pending again under its first name. -/
theorem purged_entry_returns :
    ∃ before r s after t, Run (Replica.step ⟨⟨"b", 7⟩⟩ takeoverLog) (fun _ _ => True) (.init "b") before r ∧
      r.step ⟨⟨"b", 7⟩⟩ takeoverLog (.turn .lead) = some s ∧
      r.Purges takeoverLog (.turn .lead) (takeoverEntry "n:1") ∧
      Run (Replica.step ⟨⟨"b", 7⟩⟩ takeoverLog) (fun _ _ => True) s after t ∧
      FreshSequences takeoverLog ∧ t.chase.behind = takeoverLog.length ∧
      t.chase.state.pending "o:1" = [takeoverEntry "o:1"] := by
  obtain ⟨r, s, t, hbefore, hr, hstep, hafter, ht⟩ :=
    exists_runs_of_check (Replica.step ⟨⟨"b", 7⟩⟩ takeoverLog) (fun _ _ => True) (fun _ _ => True) (.init "b")
      [.turn .lead, .rebind ⟨["o:1"], [], []⟩ 1 "o" "n"] (.turn .lead)
      [.turn (.follow (true, 1)), .turn (.follow (true, 2))]
      (fun r : Replica => decide (takeoverEntry "n:1" ∈ r.written ∧
        r.nextOp takeoverLog (.turn .lead) = some (.purge "n:1" ⟨⟨"b", 7⟩, 5⟩)))
      (fun t : Replica => decide (t.chase.behind = takeoverLog.length ∧
        t.chase.state.pending "o:1" = [takeoverEntry "o:1"])) (by decide)
  obtain ⟨hwritten, hnext⟩ := of_decide_eq_true hr
  obtain ⟨hbehind, hpending⟩ := of_decide_eq_true ht
  exact ⟨_, r, s, _, t, hbefore, hstep, ⟨hwritten, ⟨⟨"b", 7⟩, 5⟩, hnext, le_rfl⟩, hafter, by decide, hbehind,
    hpending⟩

end SevenDB.Emission
