import SevenDB.Emission.Ledger
import SevenDB.Emission.WorldStep

/-!
# The account of a subscription

The ledger of a subscription together with its acknowledgments: those queued and those
accepted are at or below the limit, so that no purge they cause goes above it. The account does
not depend on how far the notifier has come, and every step of the system keeps it.
-/

namespace SevenDB.Emission

/-- A position that cannot make the system skip an entry of the epoch above the limit. -/
def EmitSeq.Behind (epoch : EpochID) (limit : ℕ) (seq : EmitSeq) : Prop :=
  seq = .zero ∨ seq.epoch = epoch ∧ seq.index ≤ limit

section BehindRules

variable {epoch : EpochID} {limit limit' : ℕ} {mark seq : EmitSeq}

theorem EmitSeq.Behind.raise (h : seq.Behind epoch limit) (hlimit : limit ≤ limit') :
    seq.Behind epoch limit' :=
  h.imp_right fun hle => ⟨hle.1, hle.2.trans hlimit⟩

theorem EmitSeq.Behind.le (h : seq.Behind epoch limit) : seq.index ≤ limit := by
  rcases h with rfl | ⟨_, hle⟩
  · exact Nat.zero_le limit
  · exact hle

/-- Entries of the epoch that are not after such a position are within the limit. -/
theorem EmitSeq.Behind.index_le (h : mark.Behind epoch limit) (hepoch : seq.epoch = epoch)
    (hle : seq.position ≤ mark.position) : seq.index ≤ limit := by
  rcases h with rfl | ⟨hmark, hindex⟩
  · by_contra hpos
    exact absurd (EmitSeq.zero_lt_position (by omega : 0 < seq.index)) (not_lt.mpr hle)
  · rw [EmitSeq.position_le_iff_index (by rw [hepoch, hmark])] at hle
    omega

end BehindRules

/-- The ledger holds at the limit, and no acknowledgment in the system is above it. -/
structure Account (epoch : EpochID) (sub : String) (limit : ℕ) (w : World) : Prop where
  ledger : Ledger epoch sub limit w.written w.mgr
  queued : ∀ ack ∈ w.ntf.ackCh, ack.subID = sub → ack.emitSeq.Behind epoch limit
  accepted : ∀ ack ∈ w.accepted, ack.subID = sub → ack.emitSeq.Behind epoch limit

/-- What the environment may do to a subscription: write in order within the epoch, purge
what was acknowledged, and acknowledge up to the limit. -/
def AccountAllowed (epoch : EpochID) (sub : String) (limit : ℕ) (w : World) : Action → Prop
  | .write target seq _ => target = sub →
      seq.epoch = epoch ∧ seq.index < 2 ^ 63 ∧ ∀ e ∈ entriesFor sub w.written, e.index < seq.index
  | .purge target upTo => target = sub → ⟨sub, upTo⟩ ∈ w.accepted
  | .ack ack => ack.subID = sub → ack.emitSeq.Behind epoch limit
  | .applyAck ack => ack.subID = sub → ack.emitSeq.Behind epoch limit
  | _ => True

section AccountRules

variable {epoch : EpochID} {sub : String} {limit limit' : ℕ} {w next : World} {action : Action}

theorem Account.init (bucketID : String) (current : EpochID) (proposer : Bool) :
    Account epoch sub limit (World.init bucketID current proposer) where
  ledger := Ledger.init bucketID current
  queued ack hack := by cases hack
  accepted ack hack := by cases hack

theorem Account.raise (h : Account epoch sub limit w) (hlimit : limit ≤ limit') :
    Account epoch sub limit' w where
  ledger := h.ledger.raise hlimit
  queued ack hack hsub := (h.queued ack hack hsub).raise hlimit
  accepted ack hack hsub := (h.accepted ack hack hsub).raise hlimit

section

variable (h : Account epoch sub limit w) (hallowed : AccountAllowed epoch sub limit w action)
  (hstep : w.step action = some next)
include h hallowed hstep

/-- Every allowed step keeps the entries of the subscription accounted for. -/
theorem Account.ledger_step :
    Ledger epoch sub limit next.written next.mgr := by
  cases World.stepped hstep with
  | write target seq delta =>
    by_cases hsub : target = sub
    · subst hsub
      obtain ⟨hepoch, hbound, hnext⟩ := hallowed rfl
      exact h.ledger.write_self delta hepoch hbound hnext
    · exact h.ledger.write_other seq delta hsub
  | purge =>
    apply h.ledger.spare
    exact w.mgr.applyOutboxPurge_spares fun hsub => (h.accepted _ (hallowed hsub) rfl).le
  | takeAck ack _ _ hqueue =>
    have hack := h.queued ack (hqueue ▸ List.mem_cons_self)
    exact h.ledger.spare (Notifier.processAck_spares _ w.mgr fun hsub => (hack hsub).le)
  | applyAck ack => exact h.ledger.spare (w.mgr.validateAck_spares ack sub limit)
  | _ => exact h.ledger

theorem Account.step : Account epoch sub limit next := by
  obtain ⟨hqueued, haccepted⟩ := World.step_all_acks
    (P := fun ack => ack.subID = sub → ack.emitSeq.Behind epoch limit) hstep
    (by rintro ack (rfl | rfl) <;> exact hallowed) h.queued h.accepted
  exact ⟨h.ledger_step hallowed hstep, hqueued, haccepted⟩

end

end AccountRules

end SevenDB.Emission
