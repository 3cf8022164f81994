import SevenDB.Emission.World

/-!
# Ledger and queue of a subscription

How far one subscription has come is an index, the limit, that no purge may overtake. The
ledger relates the entries written in one epoch to the ones still pending, and the queue
relates the entries a running tick has to come to with the ones written. Entries above the
limit are pending, and none of them is left out before an entry in the queue.
-/

namespace SevenDB.Emission

open SevenDB.Common

/-- Above the limit nothing of the subscription is lost, and nothing is added anywhere. -/
def Manager.Spares (m after : Manager) (sub : String) (limit : ℕ) : Prop :=
  ∀ e : OutboxEntry, e.subID = sub →
    (after.IsPending e → m.IsPending e) ∧ (limit < e.index → m.IsPending e → after.IsPending e)

theorem Manager.validateAck_spares (m : Manager) (ack : ClientAck) (sub : String) (limit : ℕ) :
    m.Spares (m.validateAck ack.subID ack.emitSeq).2 sub limit := by
  intro e _
  rw [Manager.isPending_validateAck]
  exact ⟨id, fun _ h => h⟩

theorem Manager.applyOutboxPurge_spares (m : Manager) {purged sub : String} {upTo : EmitSeq} {limit : ℕ}
    (hupTo : purged = sub → upTo.index ≤ limit) :
    m.Spares (m.applyOutboxPurge purged upTo) sub limit := by
  intro e hsub
  rw [Manager.isPending_applyOutboxPurge]
  refine ⟨fun h => h.1, fun habove h => ⟨h, fun hpurged => ?_⟩⟩
  exact lt_of_le_of_lt (hupTo (hpurged.symm.trans hsub)) habove

theorem Notifier.processAck_spares (n : Notifier) (m : Manager) {ack : ClientAck} {sub : String}
    {limit : ℕ} (hack : ack.subID = sub → ack.emitSeq.index ≤ limit) :
    m.Spares (n.processAck m ack).2.2 sub limit := by
  have hvalidated := m.validateAck_spares ack sub limit
  rcases n.manager_processAck m ack with heq | heq
  · rw [heq]
    exact hvalidated
  · rw [heq]
    intro e hsub
    have hpurged := Manager.applyOutboxPurge_spares (m.validateAck ack.subID ack.emitSeq).2 hack e hsub
    exact ⟨fun h => (hvalidated e hsub).1 (hpurged.1 h),
      fun habove h => hpurged.2 habove ((hvalidated e hsub).2 habove h)⟩

/-- What was written for a subscription in one epoch, and what of it is still pending. -/
structure Ledger (epoch : EpochID) (sub : String) (limit : ℕ) (written : List OutboxEntry)
    (mgr : Manager) : Prop where
  increasing : (entriesFor sub written).Pairwise fun first second => first.index < second.index
  inEpoch : ∀ e ∈ entriesFor sub written, e.seq.epoch = epoch
  bounded : ∀ e ∈ entriesFor sub written, e.index < 2 ^ 63
  fromLog : ∀ e : OutboxEntry, e.subID = sub → mgr.IsPending e → e ∈ entriesFor sub written
  retained : ∀ e ∈ entriesFor sub written, limit < e.index → mgr.IsPending e

section LedgerRules

variable {epoch : EpochID} {sub : String} {limit : ℕ} {written : List OutboxEntry} {mgr : Manager}

theorem Ledger.init (bucketID : String) (current : EpochID) :
    Ledger epoch sub limit [] ((newManager bucketID).setCurrentEpoch current) where
  increasing := List.Pairwise.nil
  inEpoch e he := by cases he
  bounded e he := by cases he
  fromLog e _ hpending := by cases hpending
  retained e he := by cases he

section

variable (h : Ledger epoch sub limit written mgr)
include h

theorem Ledger.raise {limit' : ℕ} (hlimit : limit ≤ limit') :
    Ledger epoch sub limit' written mgr :=
  { h with retained := fun e he habove => h.retained e he (lt_of_le_of_lt hlimit habove) }

/-- A change of the manager that spares the subscription keeps the ledger. -/
theorem Ledger.spare {after : Manager}
    (hspares : mgr.Spares after sub limit) : Ledger epoch sub limit written after :=
  { h with
    fromLog := fun e hsub hpending => h.fromLog e hsub ((hspares e hsub).1 hpending)
    retained := fun e he habove =>
      (hspares e (mem_entriesFor.mp he).2).2 habove (h.retained e he habove) }

theorem Ledger.write_other {other : String} (seq : EmitSeq)
    (delta : List UInt8) (hother : other ≠ sub) :
    Ledger epoch sub limit (written ++ [⟨other, seq, delta⟩]) (mgr.applyOutboxWrite other seq delta) := by
  have hsame : ∀ e : OutboxEntry, e.subID = sub →
      ((mgr.applyOutboxWrite other seq delta).IsPending e ↔ mgr.IsPending e) := by
    intro e hsub
    have hne : ¬ (e.subID = other ∧ e.seq.commitIndex = seq.commitIndex) :=
      fun heq => hother (heq.1.symm.trans hsub)
    rw [Manager.isPending_applyOutboxWrite, if_neg hne]
  have hlist : entriesFor sub (written ++ [⟨other, seq, delta⟩]) = entriesFor sub written :=
    entriesFor_append_other written hother
  exact
    { increasing := hlist ▸ h.increasing
      inEpoch := hlist ▸ h.inEpoch
      bounded := hlist ▸ h.bounded
      fromLog := fun e hsub hpending => hlist ▸ h.fromLog e hsub ((hsame e hsub).mp hpending)
      retained := fun e he habove => by
        rw [hlist] at he
        exact (hsame e (mem_entriesFor.mp he).2).mpr (h.retained e he habove) }

/-- The entries written after an in-order write, and the manager that holds them. -/
theorem Ledger.write_self {seq : EmitSeq} (delta : List UInt8)
    (hepoch : seq.epoch = epoch) (hbound : seq.index < 2 ^ 63)
    (hnext : ∀ e ∈ entriesFor sub written, e.index < seq.index) :
    Ledger epoch sub limit (written ++ [⟨sub, seq, delta⟩]) (mgr.applyOutboxWrite sub seq delta) := by
  have hlist := entriesFor_append_self written ⟨sub, seq, delta⟩
  have hmem : ∀ e, e ∈ entriesFor sub (written ++ [⟨sub, seq, delta⟩]) ↔
      e ∈ entriesFor sub written ∨ e = ⟨sub, seq, delta⟩ := by
    intro e
    rw [hlist, List.mem_append, List.mem_singleton]
  have hpending : ∀ e : OutboxEntry, e.subID = sub → ((mgr.applyOutboxWrite sub seq delta).IsPending e ↔
      if e.seq.commitIndex = seq.commitIndex then e = ⟨sub, seq, delta⟩ else mgr.IsPending e) := by
    intro e hsub
    simp only [Manager.isPending_applyOutboxWrite, hsub, true_and]
  constructor
  · rw [hlist, List.pairwise_append]
    refine ⟨h.increasing, List.pairwise_singleton _ _, ?_⟩
    intro first hfirst second hsecond
    rw [List.mem_singleton.mp hsecond]
    exact hnext first hfirst
  · intro e he
    rcases (hmem e).mp he with hold | rfl
    · exact h.inEpoch e hold
    · exact hepoch
  · intro e he
    rcases (hmem e).mp he with hold | rfl
    · exact h.bounded e hold
    · exact hbound
  · intro e hsub hpend
    have hcase := (hpending e hsub).mp hpend
    split at hcase
    · exact (hmem e).mpr (Or.inr hcase)
    · exact (hmem e).mpr (Or.inl (h.fromLog e hsub hcase))
  · intro e he habove
    rcases (hmem e).mp he with hold | rfl
    · have hlt := hnext e hold
      have hne : e.seq.commitIndex ≠ seq.commitIndex :=
        fun heq => absurd (congrArg UInt64.toNat heq) (Nat.ne_of_lt hlt)
      rw [hpending e (mem_entriesFor.mp hold).2, if_neg hne]
      exact h.retained e hold habove
    · rw [hpending _ rfl, if_pos rfl]

theorem Ledger.pending_increasing :
    (mgr.pending sub).Pairwise fun first second => first.index < second.index := by
  apply OutboxState.pendingSorted_increasing
  intro idx e hentry
  obtain ⟨hsub, hidx⟩ := OutboxState.entryAt_filed hentry
  refine h.bounded e (h.fromLog e hsub ?_)
  rw [Manager.IsPending, hsub, hidx]
  exact hentry

end

end LedgerRules

/-- Entries to come to, with no entry above the limit left out before any of them. -/
structure Queue (sub : String) (limit : ℕ) (written todo : List OutboxEntry) : Prop where
  fromLog : ∀ e ∈ todo, e ∈ entriesFor sub written
  increasing : todo.Pairwise fun first second => first.index < second.index
  noGap : ∀ e ∈ todo, ∀ x ∈ entriesFor sub written, x.index < e.index → x ∈ todo ∨ x.index ≤ limit

section QueueRules

variable {epoch : EpochID} {sub : String} {limit : ℕ} {written todo : List OutboxEntry} {mgr : Manager}

theorem Queue.nil : Queue sub limit written [] where
  fromLog e he := by cases he
  increasing := List.Pairwise.nil
  noGap e he := by cases he

theorem Queue.raise (h : Queue sub limit written todo) {limit' : ℕ} (hlimit : limit ≤ limit') :
    Queue sub limit' written todo :=
  { h with noGap := fun e he x hx hlt => (h.noGap e he x hx hlt).imp_right fun hle => hle.trans hlimit }

theorem Ledger.queue (h : Ledger epoch sub limit written mgr) :
    Queue sub limit written (mgr.pending sub) where
  fromLog e he := by
    obtain ⟨hsub, hpending⟩ := (mgr.mem_pending_iff sub e).mp he
    exact h.fromLog e hsub hpending
  increasing := h.pending_increasing
  noGap e _ x hx _ := by
    by_cases habove : limit < x.index
    · exact Or.inl ((mgr.mem_pending_iff sub x).mpr ⟨(mem_entriesFor.mp hx).2, h.retained x hx habove⟩)
    · exact Or.inr (not_lt.mp habove)

/-- Dropping the first entry is possible once it is within the limit. -/
theorem Queue.tail {head : OutboxEntry} (h : Queue sub limit written (head :: todo))
    (hhead : head.index ≤ limit) : Queue sub limit written todo where
  fromLog e he := h.fromLog e (List.mem_cons_of_mem head he)
  increasing := (List.pairwise_cons.mp h.increasing).2
  noGap e he x hx hlt := by
    rcases h.noGap e (List.mem_cons_of_mem head he) x hx hlt with hmem | hle
    · rcases List.mem_cons.mp hmem with rfl | hrest
      · exact Or.inr hhead
      · exact Or.inl hrest
    · exact Or.inr hle

theorem Queue.before_head {head x : OutboxEntry} (h : Queue sub limit written (head :: todo))
    (hx : x ∈ entriesFor sub written) (hlt : x.index < head.index) : x.index ≤ limit := by
  rcases h.noGap head List.mem_cons_self x hx hlt with hmem | hle
  · rcases List.mem_cons.mp hmem with rfl | hrest
    · exact absurd hlt (lt_irrefl _)
    · have hafter := (List.pairwise_cons.mp h.increasing).1 x hrest
      omega
  · exact hle

theorem Queue.congr {log : List OutboxEntry} (h : Queue sub limit written todo)
    (hsame : entriesFor sub log = entriesFor sub written) : Queue sub limit log todo where
  fromLog e he := hsame ▸ h.fromLog e he
  increasing := h.increasing
  noGap e he x hx := h.noGap e he x (hsame ▸ hx)

theorem Queue.write {log : List OutboxEntry} {entry : OutboxEntry} (h : Queue sub limit written todo)
    (hnew : entriesFor sub log = entriesFor sub written ++ [entry])
    (hnext : ∀ e ∈ entriesFor sub written, e.index < entry.index) : Queue sub limit log todo where
  fromLog e he := hnew ▸ List.mem_append_left _ (h.fromLog e he)
  increasing := h.increasing
  noGap e he x hx hlt := by
    rw [hnew, List.mem_append, List.mem_singleton] at hx
    rcases hx with hold | rfl
    · exact h.noGap e he x hold hlt
    · have hbefore := hnext e (h.fromLog e he)
      omega

end QueueRules

end SevenDB.Emission
