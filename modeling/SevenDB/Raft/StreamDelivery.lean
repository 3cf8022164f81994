import SevenDB.Raft.CommittedStream

/-!
# What the consumer of committed records receives

The records with a bucket are offered to the stream in the order of the log, and each is sent or given
up before the next one is offered. So the consumer gets them in order and at most once, whatever its
speed, and it misses exactly those whose send timed out. A stream that nobody reads holds a bounded
number of records, and the one after them is lost.
-/

namespace SevenDB.Raft

open SevenDB.Common

variable {C : Type}

theorem IndexedEntry.index_delivery {e : IndexedEntry} {d : ℕ × RaftLogRecord} (h : e.delivery? = some d) :
    d.1 = e.index := by
  unfold IndexedEntry.delivery? at h
  split at h
  · split at h
    · cases h
      rfl
    · cases h
  all_goals cases h

theorem bucketRecords_take_succ {log : List IndexedEntry} {n : ℕ} {e : IndexedEntry} (he : log[n]? = some e) :
    bucketRecords (log.take (n + 1)) = bucketRecords (log.take n) ++ e.delivery?.toList := by
  rw [List.take_add_one, he, bucketRecords, List.filterMap_append]
  rw [Option.toList_some, List.filterMap_cons]
  cases e.delivery? with
  | none => rfl
  | some d => rfl

/-- The records of a log follow each other in the order of their indices. -/
theorem bucketRecords_pairwise {log : List IndexedEntry}
    (hlog : log.Pairwise fun first second => first.index < second.index) :
    (bucketRecords log).Pairwise fun first second => first.1 < second.1 := by
  refine hlog.filterMap IndexedEntry.delivery? fun first second hlt d hd d' hd' => ?_
  rw [IndexedEntry.index_delivery hd, IndexedEntry.index_delivery hd']
  exact hlt

/-- What holds of a stream at any time: the channel is accounted for, the records with a bucket of the
entries gone through have been offered to it, and once it is closed nothing is offered any more. -/
structure CommittedStream.Streams (log : List IndexedEntry) (s : CommittedStream C) : Prop where
  accounted : s.committedCh.Accounted CommittedRecord.raftIndex
  offers_eq : s.committedCh.offers.map CommittedRecord.delivery = bucketRecords (log.take s.position)
  stopped : s.Stopped

section Preserved

variable {log : List IndexedEntry} {s t : CommittedStream C}

namespace CommittedStream.Streams

theorem indices_eq (h : s.Streams log) :
    s.committedCh.offers.map CommittedRecord.raftIndex = (bucketRecords (log.take s.position)).map Prod.fst := by
  rw [← h.offers_eq, List.map_map]
  rfl

section

variable (h : s.Streams log) (hlog : log.Pairwise fun first second => first.index < second.index)
include h hlog

theorem indices_nodup :
    (s.committedCh.offers.map CommittedRecord.raftIndex).Nodup := by
  rw [h.indices_eq, List.Nodup, List.pairwise_map]
  exact (bucketRecords_pairwise (hlog.sublist (List.take_sublist s.position log))).imp fun hlt => hlt.ne

theorem applyEntry (hpending : 0 < s.pending)
    (hidle : s.Idle) {e : IndexedEntry} (he : log[s.position]? = some e) : (s.applyEntry e).Streams log := by
  have hcommitted := s.node.committed_processEntry e
  have hrecords := bucketRecords_take_succ he
  have hopen : s.chClosed = true → False := fun hclosed => hpending.ne' (h.stopped hclosed).2.1
  cases hresult : (s.node.processEntry e.index false e.entry).2.committed with
  | none =>
    rw [hresult, Option.map_none] at hcommitted
    rw [← hcommitted, Option.toList_none, List.append_nil] at hrecords
    simp only [CommittedStream.applyEntry, hresult]
    exact ⟨h.accounted, h.offers_eq.trans hrecords.symm, fun hclosed => (hopen hclosed).elim⟩
  | some cr =>
    rw [hresult, Option.map_some] at hcommitted
    rw [← hcommitted, Option.toList_some] at hrecords
    have hordered := bucketRecords_pairwise (hlog.sublist (List.take_sublist (s.position + 1) log))
    rw [hrecords, List.pairwise_append] at hordered
    have hfresh : cr.raftIndex ∉ s.committedCh.offers.map CommittedRecord.raftIndex := by
      intro hmem
      rw [h.indices_eq] at hmem
      obtain ⟨d, hd, heq⟩ := List.mem_map.mp hmem
      exact (hordered.2.2 d hd cr.delivery (List.mem_singleton_self _)).ne heq
    simp only [CommittedStream.applyEntry, hresult]
    refine ⟨h.accounted.offer hidle hfresh, ?_, fun hclosed => (hopen hclosed).elim⟩
    change (s.committedCh.offers ++ [cr]).map CommittedRecord.delivery = _
    rw [List.map_append, h.offers_eq, hrecords]
    rfl

end

/-- A step of the channel keeps a stream in order when it offers nothing and keeps the account. -/
theorem channel (h : s.Streams log) {ch : Channel CommittedRecord}
    (haccounted : ch.Accounted CommittedRecord.raftIndex) (hoffers : ch.offers = s.committedCh.offers)
    (hidle : s.Idle → ch.offered = none) :
    ({ s with committedCh := ch } : CommittedStream C).Streams log where
  accounted := haccounted
  offers_eq := by
    rw [← h.offers_eq, ← hoffers]
  stopped := fun hclosed =>
    ⟨(h.stopped hclosed).1, (h.stopped hclosed).2.1, hidle (h.stopped hclosed).2.2⟩

theorem step (h : s.Streams log)
    (hlog : log.Pairwise fun first second => first.index < second.index) {action : StreamAction C}
    (hstep : s.step log action = some t) : t.Streams log := by
  cases CommittedStream.move_of_step hstep with
  | apply hpending hidle he => exact h.applyEntry hlog hpending hidle he
  | send hsend =>
    obtain ⟨x, _, _, rfl⟩ := Channel.send_eq_some hsend
    exact h.channel (h.accounted.send hsend) rfl fun _ => rfl
  | expire hexpire =>
    obtain ⟨x, _, rfl⟩ := Option.map_eq_some_iff.mp hexpire
    exact h.channel (h.accounted.expire (h.indices_nodup hlog) hexpire) rfl fun _ => rfl
  | receive hreceive =>
    obtain ⟨x, _, rfl⟩ := Option.map_eq_some_iff.mp hreceive
    exact h.channel (h.accounted.receive hreceive) rfl fun hidle => hidle
  | aside hchannel hposition hstopped =>
    refine ⟨?_, ?_, hstopped h.stopped⟩
    · rw [hchannel]
      exact h.accounted
    · rw [hchannel, hposition]
      exact h.offers_eq

theorem init (log : List IndexedEntry) (node : ShardRaftNode C) :
    (CommittedStream.init node).Streams log :=
  ⟨.make _, rfl, fun hclosed => (by cases hclosed)⟩

/-- The offers that were not given up are the records whose send has not timed out. -/
theorem delivered_eq (h : s.Streams log) :
    (s.committedCh.kept CommittedRecord.raftIndex).map CommittedRecord.delivery = s.delivered log := by
  rw [CommittedStream.delivered, ← h.offers_eq, List.filter_map]
  rfl

end CommittedStream.Streams

theorem CommittedStream.dropped_step {action : StreamAction C} (hstep : s.step log action = some t)
    (hsent : action ≠ .expire) : t.committedCh.dropped = s.committedCh.dropped := by
  cases CommittedStream.move_of_step hstep with
  | apply hpending hidle he =>
    rw [CommittedStream.applyEntry]
    dsimp only
    split
    · rfl
    · rfl
  | send hsend =>
    obtain ⟨x, _, _, rfl⟩ := Channel.send_eq_some hsend
    rfl
  | expire hexpire => exact absurd rfl hsent
  | receive hreceive =>
    obtain ⟨x, _, rfl⟩ := Option.map_eq_some_iff.mp hreceive
    rfl
  | aside hchannel hposition hstopped => rw [hchannel]

theorem CommittedStream.dropped_run {actions : List (StreamAction C)}
    (hrun : Run (CommittedStream.step log) (fun _ _ => True) s actions t) (hsent : .expire ∉ actions) :
    t.committedCh.dropped = s.committedCh.dropped := by
  induction hrun with
  | nil => rfl
  | cons _ hstep _ ih =>
    rw [List.mem_cons, not_or] at hsent
    exact (ih hsent.2).trans (CommittedStream.dropped_step hstep (Ne.symm hsent.1))

theorem CommittedStream.Streams.run {allowed : CommittedStream C → StreamAction C → Prop}
    {actions : List (StreamAction C)} (hlog : log.Pairwise fun first second => first.index < second.index)
    (node : ShardRaftNode C) (hrun : Run (CommittedStream.step log) allowed (.init node) actions t) :
    t.Streams log :=
  hrun.invariant (CommittedStream.Streams log) (fun _ _ _ h _ hstep => h.step hlog hstep) (.init log node)

end Preserved

/-- Whatever the committed log and the speed of the consumer, the records received are in raft-index
order without duplicates; they come first among the committed records with a bucket whose send has not
timed out, they are all of these once the closed stream is emptied, and without a timeout these are all
committed records with a bucket. -/
theorem committedStream_ordered (log : List IndexedEntry) (node : ShardRaftNode C)
    (actions : List (StreamAction C)) (t : CommittedStream C)
    (hlog : log.Pairwise fun first second => first.index < second.index)
    (hrun : Run (CommittedStream.step log) (fun _ _ => True) (.init node) actions t) :
    (t.committedCh.received.Pairwise fun first second => first.raftIndex < second.raftIndex) ∧
      t.committedCh.received.map CommittedRecord.delivery <+: t.delivered log ∧
      (t.chClosed = true → t.committedCh.buffer = [] →
        t.committedCh.received.map CommittedRecord.delivery = t.delivered log) ∧
      (.expire ∉ actions → t.delivered log = bucketRecords (log.take t.position)) := by
  have h := CommittedStream.Streams.run hlog node hrun
  have hfirst := h.accounted.received_isPrefix
  refine ⟨?_, ?_, fun hclosed hempty => ?_, fun hsent => ?_⟩
  · have hordered := bucketRecords_pairwise (hlog.sublist (List.take_sublist t.position log))
    rw [← h.offers_eq, List.pairwise_map] at hordered
    exact hordered.sublist (hfirst.sublist.trans List.filter_sublist)
  · rw [← h.delivered_eq]
    exact hfirst.map CommittedRecord.delivery
  · rw [← h.delivered_eq, h.accounted.received_eq (h.stopped hclosed).2.2 hempty]
  · have hdropped := CommittedStream.dropped_run hrun hsent
    change t.committedCh.dropped = [] at hdropped
    rw [CommittedStream.delivered, hdropped]
    exact List.filter_eq_self.mpr fun d _ => decide_eq_true List.not_mem_nil

/-- A heartbeat, a configuration change and a malformed entry between two records of a bucket. -/
def shortLog : List IndexedEntry :=
  [⟨1, .normal .empty⟩, ⟨2, .normal (.wire ⟨1, "b", 1001, [7]⟩)⟩, ⟨3, .confChange⟩, ⟨4, .normal .malformed⟩,
    ⟨5, .normal (.wire ⟨2, "b", 1001, [8]⟩)⟩]

/-- A consumer that takes the first record while the second waits gets both, the second one after the
node was closed. -/
theorem committedStream_ordered_two_records :
    ∃ t : CommittedStream ℕ, t.chClosed = true ∧
      t.committedCh.received.map CommittedRecord.delivery = [(2, ⟨"b", 1001, [7]⟩), (5, ⟨"b", 1001, [8]⟩)] := by
  let actions : List (StreamAction ℕ) := [.ready 2, .apply, .apply, .send, .register 9 0, .ready 3, .apply,
    .apply, .apply, .close, .receive, .send, .closeChannel, .receive]
  obtain ⟨t, hrun, htest⟩ := exists_run_of_check (CommittedStream.step shortLog) (fun _ _ => True)
    (.init (newShardRaftNode ℕ 0 0 0)) actions
    (fun t : CommittedStream ℕ => t.chClosed && decide (t.committedCh.buffer = [] ∧ t.position = 5))
    (by decide +kernel)
  rw [Bool.and_eq_true, decide_eq_true_iff] at htest
  obtain ⟨hclosed, hempty, hposition⟩ := htest
  obtain ⟨_, _, hall, hnone⟩ := committedStream_ordered shortLog (newShardRaftNode ℕ 0 0 0) actions t
    (by decide +kernel) hrun
  refine ⟨t, hclosed, ?_⟩
  rw [hall hclosed hempty, hnone (by decide +kernel), hposition]
  rfl

/-- One record more than the stream can hold. -/
def longLog : List IndexedEntry :=
  (List.range (Emission.committedCapacity + 1)).map fun n => ⟨n + 1, .normal (.wire ⟨0, "b", 1001, []⟩)⟩

theorem getElem?_longLog {n : ℕ} (hn : n ≤ Emission.committedCapacity) :
    longLog[n]? = some ⟨n + 1, .normal (.wire ⟨0, "b", 1001, []⟩)⟩ := by
  rw [longLog, List.getElem?_map, List.getElem?_range (by omega)]
  rfl

/-- The long log has one record more than the stream can hold. -/
theorem length_longLog : longLog.length = Emission.committedCapacity + 1 := by
  rw [longLog, List.length_map, List.length_range]

/-- The entries of the long log are in the order of their indices. -/
theorem longLog_pairwise : longLog.Pairwise fun first second => first.index < second.index := by
  rw [longLog, List.pairwise_map]
  exact List.pairwise_lt_range.imp fun hlt => Nat.succ_lt_succ hlt

/-- When the consumer takes nothing while a Ready of one record more than the stream can hold is gone
through, the send of the last record times out, and the consumer never gets it. -/
theorem committedStream_drops :
    ∃ (actions : List (StreamAction ℕ)) (t : CommittedStream ℕ),
      Run (CommittedStream.step longLog) OnlyWhenFull (.init (newShardRaftNode ℕ 0 0 0)) actions t ∧
      t.chClosed = true ∧ t.committedCh.buffer = [] ∧ t.position = longLog.length ∧
      t.committedCh.received.map CommittedRecord.delivery ≠ bucketRecords longLog := by
  let start : CommittedStream ℕ := .init (newShardRaftNode ℕ 0 0 0)
  let ready : CommittedStream ℕ := { start with pending := Emission.committedCapacity + 1 }
  have hready : start.step longLog (.ready (Emission.committedCapacity + 1)) = some ready := by
    have hlength : 0 + (Emission.committedCapacity + 1) ≤ longLog.length := by
      rw [length_longLog, Nat.zero_add]
    rw [CommittedStream.step]
    exact if_pos ⟨rfl, rfl, rfl, hlength⟩
  obtain ⟨filling, full, hfill, hidle, hposition, hpending, hbuffer, hcapacity, hopen, hch⟩ :=
    CommittedStream.exists_run_fill longLog Emission.committedCapacity ready rfl (Nat.le_succ _)
      (Nat.le_of_eq (Nat.zero_add _)) (fun n hn => by
        have hentry := getElem?_longLog hn.le
        rw [← Nat.zero_add n] at hentry
        exact ⟨_, _, hentry, rfl⟩)
  have hplace : full.position = Emission.committedCapacity := hposition.trans (Nat.zero_add _)
  have hlast := getElem?_longLog (le_refl Emission.committedCapacity)
  rw [← hplace] at hlast
  obtain ⟨dropping, t, hdrop, hclosed, hempty, hend, hlost⟩ := CommittedStream.exists_run_drop hidle
    (hpending.trans (Nat.add_sub_cancel_left _ 1)) hopen hch
    (by rw [hbuffer, hcapacity]; exact Nat.le_add_left _ _) hlast rfl
  have hrun := Run.cons (fun hexpire => (by cases hexpire)) hready (hfill.append hdrop)
  have hall : t.position = longLog.length := by rw [hend, hplace, length_longLog]
  refine ⟨_, t, hrun, hclosed, hempty, hall, fun hsame => ?_⟩
  have h := CommittedStream.Streams.run longLog_pairwise _ hrun
  rw [h.accounted.received_eq (h.stopped hclosed).2.2 hempty, h.delivered_eq] at hsame
  have hmem : (full.position + 1, (⟨"b", 1001, []⟩ : RaftLogRecord)) ∈ bucketRecords longLog :=
    List.mem_filterMap.mpr ⟨_, List.mem_of_getElem? hlast, rfl⟩
  rw [← hsame, CommittedStream.delivered, List.mem_filter] at hmem
  exact of_decide_eq_true hmem.2 hlost

end SevenDB.Raft
