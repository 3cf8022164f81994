import SevenDB.Emission.Applier

/-!
# Replicas converge under double apply

Each replica applies the outbox records of the committed log twice: its replication handler
applies them in order, and its applier applies them in order again, somewhere behind. Once both
are through, the pending entries and the compaction watermarks are those of applying the log
once, so replicas with the same log agree, whatever their interleavings, epochs and roles were.
-/

namespace SevenDB.Emission

open SevenDB.Common

/-- An outbox command with all its arguments: five for a write and four for a purge. -/
def ReplicationPayload.WellFormed (pl : ReplicationPayload) : Prop :=
  pl.cmd = .outboxWrite ∧ 5 ≤ pl.args.length ∨ pl.cmd = .outboxPurge ∧ 4 ≤ pl.args.length

instance (pl : ReplicationPayload) : Decidable pl.WellFormed := inferInstanceAs (Decidable (_ ∨ _))

structure OutboxRecord where
  payload : ReplicationPayload
  wellFormed : payload.WellFormed

/-- The outbox operation that a command stands for. -/
def ReplicationPayload.op : ReplicationPayload → Option OutboxOp
  | ⟨.outboxWrite, sub :: bucket :: ec :: ci :: delta :: _⟩ =>
    some (.write ⟨sub, emitSeqOf bucket ec ci, textBytes delta⟩)
  | ⟨.outboxPurge, sub :: bucket :: ec :: ci :: _⟩ => some (.purge sub (emitSeqOf bucket ec ci))
  | _ => none

/-- A well-formed command stands for an operation, which both consumers apply. -/
theorem ReplicationPayload.WellFormed.op {pl : ReplicationPayload} (h : pl.WellFormed) :
    ∃ op, pl.op = some op ∧ (∀ mgr, replicationHandler mgr pl = .ok (mgr.applyOp op)) ∧
      ∀ (a : Applier) isLeader commitIndex mgr,
        a.applyCommand isLeader commitIndex mgr pl = (mgr.applyOp op, none) := by
  obtain ⟨cmd, args⟩ := pl
  rcases h with ⟨hcmd, hlength⟩ | ⟨hcmd, hlength⟩
  · change cmd = _ at hcmd
    subst hcmd
    match args, hlength with
    | sub :: bucket :: ec :: ci :: delta :: _, _ =>
      exact ⟨.write ⟨sub, emitSeqOf bucket ec ci, textBytes delta⟩, rfl, fun _ => rfl, fun _ _ _ _ => rfl⟩
  · change cmd = _ at hcmd
    subst hcmd
    match args, hlength with
    | sub :: bucket :: ec :: ci :: _, _ =>
      exact ⟨.purge sub (emitSeqOf bucket ec ci), rfl, fun _ => rfl, fun _ _ _ _ => rfl⟩

/-- Apply a record through the replication handler. -/
def Manager.handleRecord (mgr : Manager) (record : OutboxRecord) : Manager := mgr.handle record.payload

/-- Apply a record through the applier, in the role that its node has at that moment. -/
def Applier.applyRecord (a : Applier) (circumstance : Bool × UInt64) (mgr : Manager)
    (record : OutboxRecord) : Manager :=
  (a.applyCommand circumstance.1 circumstance.2 mgr record.payload).1

/-- The effect of a record on the contents that operations act on. -/
def OutboxRecord.effect {K W : Type} (effect : OutboxOp → K → Option W) (record : OutboxRecord)
    (key : K) : Option W :=
  record.payload.op.bind fun op => effect op key

section Effects

variable {K W : Type} {content : Manager → K → W} {effect : OutboxOp → K → Option W}

section

variable (h : HasEffect content effect Manager.applyOp)
include h

/-- The handler acts on the contents as the operation of the record does. -/
theorem hasEffect_handleRecord :
    HasEffect content (OutboxRecord.effect effect) Manager.handleRecord := by
  intro mgr record key
  obtain ⟨op, hop, hhandler, _⟩ := record.wellFormed.op
  rw [Manager.handleRecord, Manager.handle, hhandler, OutboxRecord.effect, hop]
  exact h mgr op key

/-- The applier acts on the contents as the operation of the record does. -/
theorem hasEffect_applyRecord (a : Applier)
    (circumstance : Bool × UInt64) :
    HasEffect content (OutboxRecord.effect effect) (a.applyRecord circumstance) := by
  intro mgr record key
  obtain ⟨op, hop, _, happlier⟩ := record.wellFormed.op
  rw [Applier.applyRecord, happlier, OutboxRecord.effect, hop]
  exact h mgr op key

/-- Once the applier is through, the contents are those of one replay of the log. -/
theorem content_drained (a : Applier) (start : Manager)
    {log : List OutboxRecord} {turns : List (Turn (Bool × UInt64))} {chase : Chase Manager}
    (hrun : Run (chaseStep Manager.handleRecord a.applyRecord log) (fun _ _ => True) ⟨start, 0, 0⟩ turns chase)
    (hdrained : chase.behind = log.length) :
    content chase.state = replay (OutboxRecord.effect effect) (content start) log := by
  funext key
  exact chase_drained (hasEffect_handleRecord h) (hasEffect_applyRecord h a) hrun hdrained key

theorem content_handled (start : Manager)
    (log : List OutboxRecord) :
    content (log.foldl Manager.handleRecord start) =
      replay (OutboxRecord.effect effect) (content start) log := by
  funext key
  exact (hasEffect_handleRecord h).foldl start log key

end

end Effects

theorem ob_eq_of_pendingMap {m n : Manager} (h : m.pendingMap = n.pendingMap) : m.ob = n.ob := by
  apply OutboxState.ext_entryAt
  intro sub idx
  exact congrFun h (sub, idx)

/-- When the handler and the applier behind it are through the log, the outbox and the compaction
watermarks are those of applying the log once, and two replicas that started alike agree. -/
theorem double_apply_converges (a : Applier) (start : Manager) {log : List OutboxRecord}
    {turns : List (Turn (Bool × UInt64))} {chase : Chase Manager}
    (hrun : Run (chaseStep Manager.handleRecord a.applyRecord log) (fun _ _ => True) ⟨start, 0, 0⟩ turns chase)
    (hdrained : chase.behind = log.length) :
    (chase.state.ob = (log.foldl Manager.handleRecord start).ob ∧
      chase.state.compactThrough = (log.foldl Manager.handleRecord start).compactThrough) ∧
    ∀ (b : Applier) (start' : Manager) (turns' : List (Turn (Bool × UInt64))) (chase' : Chase Manager),
      start'.ob = start.ob → start'.compactThrough = start.compactThrough →
      Run (chaseStep Manager.handleRecord b.applyRecord log) (fun _ _ => True) ⟨start', 0, 0⟩ turns' chase' →
      chase'.behind = log.length →
      chase'.state.ob = chase.state.ob ∧ chase'.state.compactThrough = chase.state.compactThrough := by
  have hpending := content_drained hasEffect_pending a start hrun hdrained
  have hcompaction := content_drained hasEffect_compaction a start hrun hdrained
  refine ⟨⟨?_, ?_⟩, ?_⟩
  · apply ob_eq_of_pendingMap
    rw [hpending, content_handled hasEffect_pending]
  · refine Finmap.ext_lookup (congrFun (?_ : Manager.compactionMap _ = Manager.compactionMap _))
    rw [hcompaction, content_handled hasEffect_compaction]
  · intro b start' turns' chase' hob hcompact hrun' hdrained'
    have hstart : start'.pendingMap = start.pendingMap := by
      funext key
      rw [Manager.pendingMap, Manager.entryAt, hob]
      rfl
    have hstart' : start'.compactionMap = start.compactionMap := by
      funext sub
      rw [Manager.compactionMap, hcompact]
      rfl
    constructor
    · apply ob_eq_of_pendingMap
      rw [hpending, content_drained hasEffect_pending b start' hrun' hdrained', hstart]
    · refine Finmap.ext_lookup (congrFun (?_ : Manager.compactionMap _ = Manager.compactionMap _))
      rw [hcompaction, content_drained hasEffect_compaction b start' hrun' hdrained', hstart']

/-- An entry is written, purged and written again; the applier writes it a third time and purges
it a second time after the handler is through. -/
theorem double_apply_converges_rewritten :
    ∃ chase : Chase Manager, chase.behind = 3 ∧
      chase.state.ob = (List.foldl Manager.handleRecord (newManager "b")
        [⟨⟨.outboxWrite, ["s", "b", "7", "1", "x"]⟩, by decide⟩, ⟨⟨.outboxPurge, ["s", "b", "7", "1"]⟩, by decide⟩,
          ⟨⟨.outboxWrite, ["s", "b", "7", "1", "y"]⟩, by decide⟩]).ob := by
  obtain ⟨chase, hrun, hdrained⟩ := exists_run_of_check
    (chaseStep Manager.handleRecord (Applier.applyRecord ⟨⟨"b", 7⟩⟩)
      [⟨⟨.outboxWrite, ["s", "b", "7", "1", "x"]⟩, by decide⟩, ⟨⟨.outboxPurge, ["s", "b", "7", "1"]⟩, by decide⟩,
        ⟨⟨.outboxWrite, ["s", "b", "7", "1", "y"]⟩, by decide⟩])
    (fun _ _ => True) ⟨newManager "b", 0, 0⟩
    [.lead, .lead, .follow (true, 1), .lead, .follow (false, 2), .follow (true, 3)]
    (fun chase => decide (chase.behind = 3)) (by decide)
  have hthrough := of_decide_eq_true hdrained
  exact ⟨chase, hthrough, (double_apply_converges ⟨⟨"b", 7⟩⟩ (newManager "b") hrun hthrough).1.1⟩

end SevenDB.Emission
