import SevenDB.Emission.Group

/-!
# Committed events and their outbox records

An event reaches the outbox only when an applier takes it while its node is leader and the
proposal it makes then is committed. Nothing repeats a proposal that was lost, and a node that
becomes leader does not go back to the events its applier has passed. Without lost proposals,
without a full stream on a leader, and when a node becomes leader only after the events that
its applier has passed were taken on a leader, no committed event is lost.
-/

namespace SevenDB.Emission

open SevenDB.Common

/-- A command is an event of a subscription with its delta. -/
def ReplicationPayload.IsEvent (pl : ReplicationPayload) (sub delta : String) : Prop :=
  pl.cmd = .dataEvent ∧ ∃ rest, pl.args = sub :: delta :: rest

/-- A command is an outbox record of a subscription with the delta. -/
def ReplicationPayload.IsOutboxWrite (pl : ReplicationPayload) (sub delta : String) : Prop :=
  pl.cmd = .outboxWrite ∧ ∃ bucket ec ci rest, pl.args = sub :: bucket :: ec :: ci :: delta :: rest

variable {N : Type}

/-- The log has an event at an index. -/
def Group.EventAt (g : Group N) (i : ℕ) : Prop :=
  ∃ pl ∈ g.log[i]?, pl.cmd = .dataEvent ∧ 2 ≤ pl.args.length

instance (g : Group N) (i : ℕ) : Decidable (g.EventAt i) := by
  unfold Group.EventAt
  infer_instance

/-- The applier of a node has passed an index of the log: the node has applied it and it is not in
the stream any more. -/
def GroupNode.Passed (node : GroupNode) (i : ℕ) : Prop :=
  i < node.applied ∧ ∀ record ∈ node.committedCh, record.raftIndex ≠ i

instance (node : GroupNode) (i : ℕ) : Decidable (node.Passed i) := inferInstanceAs (Decidable (_ ∧ _))

/-- Every event that the applier of the node has passed was taken on a leader. -/
def Group.CaughtUp (g : Group N) (node : GroupNode) : Prop :=
  ∀ i < node.applied, node.Passed i → g.EventAt i → i ∈ g.claimed

instance (g : Group N) (node : GroupNode) : Decidable (g.CaughtUp node) := by
  unfold Group.CaughtUp
  infer_instance

/-- No outbox record is lost as a proposal, a leader has room in its stream, and a node becomes
leader only when it is caught up. -/
def OrderlyHandover (g : Group N) : GroupAction N → Prop
  | .apply n => (g.nodes n).isLeader → (g.nodes n).committedCh.length < committedCapacity
  | .failProposal out => out.cmd ≠ .outboxWrite
  | .setLeader n isLeader => isLeader → g.CaughtUp (g.nodes n)
  | _ => True

instance (g : Group N) (action : GroupAction N) : Decidable (OrderlyHandover g action) := by
  cases action <;> unfold OrderlyHandover <;> infer_instance

/-- Leaders are caught up, and what was taken on a leader is recorded or about to be. -/
structure Handled (g : Group N) : Prop where
  queued : ∀ n, ∀ record ∈ (g.nodes n).committedCh, g.log[record.raftIndex]? = some record.payload
  within : ∀ n, (g.nodes n).applied ≤ g.log.length
  leaders : ∀ n, (g.nodes n).isLeader → g.CaughtUp (g.nodes n)
  claimed : ∀ i ∈ g.claimed, i < g.log.length
  recorded : ∀ i ∈ g.claimed, ∀ pl sub delta, g.log[i]? = some pl → pl.IsEvent sub delta →
    ∃ out, (out ∈ g.log ∨ out ∈ g.inFlight) ∧ out.IsOutboxWrite sub delta

theorem Handled.init (bucketID : String) (times : N → UInt64) : Handled (Group.init bucketID times) where
  queued n record h := by cases h
  within n := le_rfl
  leaders n h := by cases h
  claimed i h := by cases h
  recorded i h := by cases h

section Rules

variable {g next : Group N}

/-- Growing the log keeps everything handled, while the records in flight stay or are committed. -/
theorem Handled.grow (h : Handled g) (pl : ReplicationPayload) {inFlight : List ReplicationPayload}
    (hflight : ∀ out ∈ g.inFlight, out ∈ inFlight ∨ out = pl) :
    Handled { g with log := g.log ++ [pl], inFlight := inFlight } := by
  have hlength : (g.log ++ [pl]).length = g.log.length + 1 := by simp
  refine ⟨?_, ?_, ?_, ?_, ?_⟩
  · intro n record hrecord
    have hold := h.queued n record hrecord
    rw [← hold]
    exact List.getElem?_append_left (List.getElem?_eq_some_iff.mp hold).1
  · intro n
    change (g.nodes n).applied ≤ (g.log ++ [pl]).length
    have hold := h.within n
    omega
  · intro n hleader i hi hpassed hevent
    apply h.leaders n hleader i hi hpassed
    obtain ⟨event, hlog, hform⟩ := hevent
    have hbound : i < g.log.length := hi.trans_le (h.within n)
    exact ⟨event, (List.getElem?_append_left hbound) ▸ hlog, hform⟩
  · intro i hi
    change i < (g.log ++ [pl]).length
    have hold := h.claimed i hi
    omega
  · intro i hi event sub delta hlog hevent
    change (g.log ++ [pl])[i]? = some event at hlog
    rw [List.getElem?_append_left (h.claimed i hi)] at hlog
    obtain ⟨out, hwhere, hrecord⟩ := h.recorded i hi event sub delta hlog hevent
    refine ⟨out, ?_, hrecord⟩
    rcases hwhere with hcommitted | hinFlight
    · exact Or.inl (List.mem_append_left _ hcommitted)
    · rcases hflight out hinFlight with hstill | rfl
      · exact Or.inr hstill
      · exact Or.inl (List.mem_append_right _ (List.mem_singleton_self out))

theorem Handled.fail (h : Handled g) {lost : ReplicationPayload} (hother : lost.cmd ≠ .outboxWrite) :
    Handled { g with inFlight := g.inFlight.erase lost } := by
  refine { h with recorded := ?_ }
  intro i hi event sub delta hlog hevent
  obtain ⟨out, hwhere, hrecord⟩ := h.recorded i hi event sub delta hlog hevent
  refine ⟨out, hwhere.imp_right fun hinFlight => ?_, hrecord⟩
  apply (List.mem_erase_of_ne ?_).mpr hinFlight
  rintro rfl
  exact hother hrecord.1

/-- A leader stays caught up when it applies an entry that finds room in its stream. -/
theorem Group.CaughtUp.applyEntry {node : GroupNode} (h : g.CaughtUp node) (pl : ReplicationPayload)
    (hroom : node.committedCh.length < committedCapacity) : g.CaughtUp (node.applyEntry pl) := by
  intro i hi hpassed hevent
  have hch : (node.applyEntry pl).committedCh =
      node.committedCh ++ [⟨node.applied, node.perBucketCommit + 1, pl⟩] := if_pos hroom
  have hnew : i ≠ node.applied := by
    rintro rfl
    exact hpassed.2 _ (hch ▸ List.mem_append_right _ (List.mem_singleton_self _)) rfl
  have hbound : i < node.applied := by
    have hlt : i < node.applied + 1 := hi
    omega
  refine h i hbound ⟨hbound, fun record hrecord => ?_⟩ hevent
  exact hpassed.2 record (hch ▸ List.mem_append_left _ hrecord)

/-- A leader stays caught up when its applier takes a record and the record counts as taken. -/
theorem Group.CaughtUp.take {node after : GroupNode} {record : CommittedRecord}
    {rest : List CommittedRecord} (h : g.CaughtUp node) (hch : node.committedCh = record :: rest)
    (happlied : after.applied = node.applied) (hrest : after.committedCh = rest)
    (hlog : next.log = g.log) (hclaimed : next.claimed = g.claimed ++ [record.raftIndex]) :
    next.CaughtUp after := by
  intro i hi hpassed hevent
  rw [hclaimed]
  by_cases hself : i = record.raftIndex
  · exact List.mem_append_right _ (List.mem_singleton.mpr hself)
  · apply List.mem_append_left
    rw [happlied] at hi
    rw [Group.EventAt, hlog] at hevent
    refine h i hi ⟨hi, fun other hother => ?_⟩ hevent
    rw [hch] at hother
    rcases List.mem_cons.mp hother with rfl | hlater
    · exact Ne.symm hself
    · exact hpassed.2 other (hrest ▸ hlater)

/-- More proposals in flight and more records taken keep everything handled when the new ones are. -/
theorem Handled.extend (h : Handled g) {inFlight : List ReplicationPayload} {claimed : List ℕ}
    (hflight : g.inFlight ⊆ inFlight) (hclaimed : g.claimed ⊆ claimed)
    (hnew : ∀ i ∈ claimed, i ∈ g.claimed ∨ i < g.log.length ∧ ∀ pl sub delta, g.log[i]? = some pl →
      pl.IsEvent sub delta → ∃ out ∈ inFlight, out.IsOutboxWrite sub delta) :
    Handled { g with inFlight := inFlight, claimed := claimed } where
  queued := h.queued
  within := h.within
  leaders n hleader i hi hpassed hevent := hclaimed (h.leaders n hleader i hi hpassed hevent)
  claimed i hi := by
    rcases hnew i hi with hold | hbound
    · exact h.claimed i hold
    · exact hbound.1
  recorded i hi pl sub delta hlog hevent := by
    rcases hnew i hi with hold | hout
    · obtain ⟨out, hwhere, hrecord⟩ := h.recorded i hold pl sub delta hlog hevent
      exact ⟨out, hwhere.imp_right fun hinFlight => hflight hinFlight, hrecord⟩
    · obtain ⟨out, hinFlight, hrecord⟩ := hout.2 pl sub delta hlog hevent
      exact ⟨out, Or.inr hinFlight, hrecord⟩

/-- The applier of a leader proposes an outbox record for every event. -/
theorem Applier.proposes_event (a : Applier) (commitIndex : UInt64) (mgr : Manager)
    {pl : ReplicationPayload} {sub delta : String} (h : pl.IsEvent sub delta) :
    ∃ out ∈ (a.applyCommand true commitIndex mgr pl).2.toList, out.IsOutboxWrite sub delta := by
  obtain ⟨cmd, args⟩ := pl
  obtain ⟨hcmd, rest, hargs⟩ := h
  change cmd = _ at hcmd
  change args = _ at hargs
  subst hcmd hargs
  exact ⟨_, List.mem_singleton_self _, rfl, _, _, _, [], rfl⟩

variable [DecidableEq N]

/-- Replacing one node keeps everything handled when the new state of the node is. -/
theorem Handled.update (h : Handled g) (n : N) {node : GroupNode}
    (hqueued : ∀ record ∈ node.committedCh, g.log[record.raftIndex]? = some record.payload)
    (hwithin : node.applied ≤ g.log.length) (hleader : node.isLeader → g.CaughtUp node) :
    Handled (g.update n node) := by
  have hnode (m : N) : (g.update n node).nodes m = if m = n then node else g.nodes m :=
    Function.update_apply ..
  refine ⟨?_, ?_, ?_, h.claimed, h.recorded⟩
  · intro m
    rw [hnode]
    split
    · exact hqueued
    · exact h.queued m
  · intro m
    rw [hnode]
    split
    · exact hwithin
    · exact h.within m
  · intro m
    rw [hnode]
    split
    · exact hleader
    · exact h.leaders m

/-- When a node applies the next committed entry, everything stays handled, provided that the
stream of a leader has room. -/
theorem Handled.applyEntry (h : Handled g) (n : N) {pl : ReplicationPayload}
    (hpl : g.log[(g.nodes n).applied]? = some pl)
    (hroom : (g.nodes n).isLeader → (g.nodes n).committedCh.length < committedCapacity) :
    Handled (g.update n ((g.nodes n).applyEntry pl)) := by
  have hbound := (List.getElem?_eq_some_iff.mp hpl).1
  refine h.update n ?_ hbound fun hleader => (h.leaders n hleader).applyEntry pl (hroom hleader)
  intro record hrecord
  simp only [GroupNode.applyEntry] at hrecord
  split at hrecord
  · rcases List.mem_append.mp hrecord with hold | hnew
    · exact h.queued n record hold
    · rw [List.mem_singleton.mp hnew]
      exact hpl
  · exact h.queued n record hrecord

theorem Handled.takeRecord (h : Handled g) (n : N) {record : CommittedRecord} {rest : List CommittedRecord}
    (hch : (g.nodes n).committedCh = record :: rest) : Handled (g.takeRecord n record rest) := by
  have hlog := h.queued n record (hch ▸ List.mem_cons_self)
  have hrest : ∀ later ∈ rest, g.log[later.raftIndex]? = some later.payload := fun later hlater =>
    h.queued n later (hch ▸ List.mem_cons_of_mem record hlater)
  unfold Group.takeRecord
  dsimp only
  by_cases hleader : (g.nodes n).isLeader = true
  · rw [if_pos hleader, hleader]
    have hextended := h.extend (List.subset_append_left g.inFlight
      ((g.nodes n).applier.applyCommand true record.commitIndex (g.nodes n).mgr record.payload).2.toList)
      (List.subset_append_left g.claimed [record.raftIndex]) (by
        intro i hi
        refine (List.mem_append.mp hi).imp_right fun hself => ?_
        rw [List.mem_singleton.mp hself]
        refine ⟨(List.getElem?_eq_some_iff.mp hlog).1, fun pl sub delta hpl hevent => ?_⟩
        rw [hlog] at hpl
        cases hpl
        obtain ⟨out, hout, hrecord⟩ := (g.nodes n).applier.proposes_event record.commitIndex
          (g.nodes n).mgr hevent
        exact ⟨out, List.mem_append_right _ hout, hrecord⟩)
    refine hextended.update n hrest (h.within n) fun _ => ?_
    exact (h.leaders n hleader).take hch rfl rfl rfl rfl
  · rw [if_neg hleader]
    have hextended := h.extend (List.subset_append_left g.inFlight
      ((g.nodes n).applier.applyCommand (g.nodes n).isLeader record.commitIndex (g.nodes n).mgr
        record.payload).2.toList) (List.Subset.refl g.claimed) fun i hi => Or.inl hi
    exact hextended.update n hrest (h.within n) fun hnow => absurd hnow hleader

theorem Handled.step (h : Handled g) {action : GroupAction N} (hallowed : OrderlyHandover g action)
    (hstep : g.step action = some next) : Handled next := by
  cases action with
  | commit pl =>
    cases hstep
    exact h.grow pl fun out hout => Or.inl hout
  | apply n =>
    obtain ⟨_, hnext⟩ := Option.ite_none_right_eq_some.mp hstep
    obtain ⟨pl, hpl, rfl⟩ := Option.map_eq_some_iff.mp hnext
    exact h.applyEntry n hpl hallowed
  | take n =>
    simp only [Group.step] at hstep
    split at hstep
    · next record rest hch =>
      obtain ⟨_, rfl⟩ := Option.ite_some_none_eq_some.mp hstep
      exact h.takeRecord n hch
    · cases hstep
  | commitProposal out =>
    obtain ⟨_, rfl⟩ := Option.ite_some_none_eq_some.mp hstep
    refine h.grow out fun other hother => ?_
    by_cases hsame : other = out
    · exact Or.inr hsame
    · exact Or.inl ((List.mem_erase_of_ne hsame).mpr hother)
  | failProposal out =>
    obtain ⟨_, rfl⟩ := Option.ite_some_none_eq_some.mp hstep
    exact h.fail hallowed
  | resume n =>
    cases hstep
    exact h.update n (h.queued n) (h.within n) (h.leaders n)
  | setLeader n isLeader =>
    obtain ⟨_, rfl⟩ := Option.ite_some_none_eq_some.mp hstep
    exact h.update n (h.queued n) (h.within n) hallowed
  | crash n =>
    cases hstep
    exact h.update n (fun record hrecord => (by cases hrecord)) (h.within n) fun hleader => (by cases hleader)
  | restart n bucketID now snapshot perBucketCommit =>
    obtain ⟨hdown, rfl⟩ := Option.ite_some_none_eq_some.mp hstep
    exact h.update n (fun record hrecord => (by cases hrecord)) hdown.2 fun hleader => (by cases hleader)

end Rules

/-- In every run with orderly handovers, each committed event has a committed outbox record for the
same subscription and delta whenever the group is quiescent. -/
theorem committed_events_recorded [DecidableEq N] (bucketID : String) (times : N → UInt64)
    {actions : List (GroupAction N)} {g : Group N}
    (hrun : Run Group.step OrderlyHandover (Group.init bucketID times) actions g) (hquiet : g.Quiescent)
    {pl : ReplicationPayload} (hcommitted : pl ∈ g.log) {sub delta : String} (hevent : pl.IsEvent sub delta) :
    ∃ out ∈ g.log, out.IsOutboxWrite sub delta := by
  have h : Handled g :=
    hrun.invariant Handled (fun _ _ _ hinv hallowed hstep => hinv.step hallowed hstep)
      (Handled.init bucketID times)
  obtain ⟨hthrough, hnone, n, hlive, hleader⟩ := hquiet
  obtain ⟨happlied, hempty, _⟩ := hthrough n hlive
  obtain ⟨i, hlog⟩ := List.getElem?_of_mem hcommitted
  have hi := (List.getElem?_eq_some_iff.mp hlog).1
  have hpassed : (g.nodes n).Passed i := by
    refine ⟨happlied ▸ hi, fun record hrecord => ?_⟩
    rw [hempty] at hrecord
    cases hrecord
  have heventAt : g.EventAt i := by
    obtain ⟨hcmd, rest, hargs⟩ := hevent
    refine ⟨pl, hlog, hcmd, ?_⟩
    rw [hargs]
    simp
  have hclaimed := h.leaders n hleader i hpassed.1 hpassed heventAt
  obtain ⟨out, hwhere, hrecord⟩ := h.recorded i hclaimed pl sub delta hlog hevent
  rcases hwhere with hdone | hinFlight
  · exact ⟨out, hdone, hrecord⟩
  · rw [hnone] at hinFlight
    cases hinFlight

/-- The first node takes the event and its record is committed; the second node becomes leader
when both appliers are through. -/
theorem committed_events_recorded_handover :
    ∃ g : Group Bool, g.Quiescent ∧ (g.nodes false).isLeader ∧
      ∃ out ∈ g.log, out.IsOutboxWrite "s" "x" := by
  obtain ⟨g, hrun, hg⟩ := exists_run_of_check Group.step OrderlyHandover (Group.init "b" fun _ : Bool => 7)
    [.setLeader true true, .commit ⟨.dataEvent, ["s", "x"]⟩, .apply true, .take true,
      .commitProposal ⟨.outboxWrite, ["s", "b", "7", "1", "x"]⟩, .apply true, .resume true, .take true,
      .apply false, .apply false, .take false, .take false, .setLeader true false, .setLeader false true]
    (fun g => decide (g.Quiescent ∧ (g.nodes false).isLeader ∧ ⟨.dataEvent, ["s", "x"]⟩ ∈ g.log))
    (by decide)
  obtain ⟨hquiet, hleader, hcommitted⟩ := of_decide_eq_true hg
  exact ⟨g, hquiet, hleader,
    committed_events_recorded "b" (fun _ => 7) hrun hquiet hcommitted ⟨rfl, [], rfl⟩⟩

/-- The second node passes the event as a follower and then becomes leader, and the first node
takes it when it leads no longer: the group is quiescent and nobody has recorded the event. -/
theorem event_lost_at_handover :
    ∃ g : Group Bool,
      Run Group.step (fun _ _ => True) (Group.init "b" fun _ => 7)
        [.setLeader true true, .commit ⟨.dataEvent, ["s", "x"]⟩, .apply true, .apply false, .take false,
          .setLeader true false, .setLeader false true, .take true] g ∧
      g.Quiescent ∧ g.log = [⟨.dataEvent, ["s", "x"]⟩] ∧
      ¬ ∃ out ∈ g.log, out.IsOutboxWrite "s" "x" := by
  refine exists_run_imp _ (fun g => g.Quiescent ∧ g.log = [⟨.dataEvent, ["s", "x"]⟩]) (by decide) (fun _ _ => id)
    fun g _ ⟨hquiet, hlog⟩ => ⟨hquiet, hlog, ?_⟩
  rintro ⟨out, hout, hcmd, _⟩
  rw [hlog, List.mem_singleton] at hout
  subst hout
  cases hcmd

end SevenDB.Emission
