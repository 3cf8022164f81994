import SevenDB.Raft.Waiters

/-!
# Whose entry a proposer is told about

A caller is woken by the number in an entry. Numbers are counted on each node from the start of
its process, so two nodes, or two lives of one node, give the same number to different records.
While no node applies a record of another life or another node under a number that one of its
callers waits for, every result names the entry of the caller's own record.
-/

namespace SevenDB.Raft

open SevenDB.Common

variable {N : Type}

variable {s t : Cluster N}

/-- The caller that an applied entry wakes is the one that proposed it. -/
theorem Cluster.Matched.wakes_proposer {node : N} {fatal : Bool} (h : s.Matched)
    (hallowed : NumbersUnambiguous s (.apply node fatal)) {entry : GroupEntry}
    (hentry : s.log[s.positions node]? = some entry) {wr : WireRecord} {caller : ℕ}
    (hwire : (s.committedEntry entry).wire? = some wr)
    (hwaiter : (s.nodes node).waitersSeq.lookup wr.seq = some caller) : entry = .proposal caller := by
  obtain ⟨c, hc, hcurrent, hnode, hseq⟩ := h.waiters node wr.seq caller hwaiter
  cases entry with
  | heartbeat =>
    cases hwire
    have hpos := (h.numbers caller c hc hcurrent).1
    rw [hseq] at hpos
    exact absurd hpos (lt_irrefl 0)
  | confChange => cases hwire
  | proposal call =>
    cases hcall : s.calls[call]? with
    | none =>
      rw [Cluster.committedEntry, hcall] at hwire
      cases hwire
    | some d =>
      rw [Cluster.committedEntry, hcall] at hwire
      cases hwire
      have hnext : s.nextCall node = some d := by
        rw [Cluster.nextCall, hentry]
        exact hcall
      rcases hallowed d hnext with hnone | ⟨hsame, hlife⟩
      · rw [hnone] at hwaiter
        cases hwaiter
      · have hlive : s.Current d := by rw [Cluster.Current, hsame, hlife]
        rw [h.distinct call caller d c hcall hc hlive hcurrent (hsame.trans hnode.symm) hseq.symm]

variable [DecidableEq N]

theorem Cluster.Matched.submit {call : ℕ} (h : s.Matched) (hstep : s.step (.submit call) = some t) :
    t.Matched := by
  obtain ⟨c, hc, hstep⟩ := Option.bind_eq_some_iff.mp hstep
  split at hstep
  · next hready =>
    split at hstep
    · split at hstep
      · cases hstep
        exact h.keepNodes rfl rfl (results_unanswered h (Or.inl rfl)) rfl
      · cases hstep
        refine h.keepAt rfl rfl (results_unanswered h (Or.inr rfl)) rfl rfl (fun seq i hi => ?_)
        rw [Table.lookup_insert_eq_ite] at hi
        split at hi
        · next hseq =>
          cases hi
          exact Or.inr ⟨c, hc, hready.2, rfl, hseq.symm⟩
        · exact Or.inl hi
    · cases hstep
      exact h.keepNodes rfl rfl (results_unanswered h (Or.inr rfl)) rfl
  · cases hstep

theorem Cluster.Matched.apply {node : N} {fatal : Bool} (h : s.Matched)
    (hallowed : NumbersUnambiguous s (.apply node fatal)) (hstep : s.step (.apply node fatal) = some t) :
    t.Matched := by
  obtain ⟨_, hnext⟩ := Option.ite_none_left_eq_some.mp hstep
  obtain ⟨entry, hentry, rfl⟩ := Option.map_eq_some_iff.mp hnext
  refine h.keepAt rfl rfl (fun i result hresult => ?_) rfl (ShardRaftNode.processEntry_unchanged _ _ _ _).1
    fun seq i hi => Or.inl (ShardRaftNode.waitersSeq_processEntry _ _ _ hi)
  dsimp only at hresult ⊢
  cases hsignal : ((s.nodes node).processEntry (s.positions node + 1) fatal
      (s.committedEntry entry)).2.signal with
  | none =>
    rw [hsignal] at hresult
    exact h.results i result hresult
  | some signal =>
    obtain ⟨caller, put⟩ := signal
    rw [hsignal] at hresult
    refine results_update h (fun found hfound => ?_) i result hresult
    rcases CallPhase.receive_cases hfound with hput | hbefore
    · subst hput
      obtain ⟨hindex, wr, hwire, hwaiter⟩ := ShardRaftNode.signal_processEntry _ _ _ hsignal
      refine ⟨s.positions node, hindex, ?_⟩
      rw [hentry, h.wakes_proposer hallowed hentry hwire hwaiter]
    · exact h.results caller found hbefore

theorem Cluster.Matched.step {action : ClusterAction N} (h : s.Matched) (hallowed : NumbersUnambiguous s action)
    (hstep : s.step action = some t) : t.Matched := by
  cases action with
  | number node record waits => exact h.number hallowed hstep
  | submit call => exact h.submit hstep
  | commit entry =>
    obtain ⟨_, rfl⟩ := Option.ite_some_none_eq_some.mp hstep
    exact h.keepNodes rfl rfl (fun i result hresult => (h.results i result hresult).append entry) rfl
  | apply node fatal => exact h.apply hallowed hstep
  | install node index =>
    obtain ⟨_, rfl⟩ := Option.ite_some_none_eq_some.mp hstep
    exact h.keepNodes rfl rfl h.results rfl
  | finish call =>
    simp only [Cluster.step] at hstep
    split at hstep
    · next result hdelivered =>
      cases hstep
      refine h.keepNodes rfl rfl (results_update h fun found hfound => ?_) rfl
      rcases hfound with hfound | hfound
      · cases hfound
      · cases hfound
        exact h.results call result (Or.inl hdelivered)
    · cases hstep
  | cancel call =>
    simp only [Cluster.step] at hstep
    split at hstep
    · cases hstep
    · split at hstep
      · cases hstep
        exact h.keepNodes rfl rfl (results_unanswered h (Or.inl rfl)) rfl
      · cases hstep
  | close node =>
    cases hstep
    refine h.keepAt rfl rfl (fun i result hresult => ?_) rfl rfl fun seq i hi => (by cases hi)
    dsimp only at hresult ⊢
    split at hresult
    · rcases CallPhase.receive_cases hresult with hput | hbefore
      · cases hput
      · exact h.results i result hbefore
    · exact h.results i result hresult
  | restart node position => exact h.restart hstep

/-- While numbers are unambiguous, a call that returns a result without error returns the index
of the committed entry that holds the record it has proposed. -/
theorem proposal_result_is_own {snapshotThreshold : ℕ} {actions : List (ClusterAction N)} {s : Cluster N}
    (hrun : Run Cluster.step NumbersUnambiguous (.init N snapshotThreshold) actions s) {call : ℕ}
    {result : ProposalResult} (hreturned : s.phase call = .returned result) :
    ∃ position, result.raftIndex = position + 1 ∧ s.log[position]? = some (.proposal call) := by
  have hmatched : s.Matched :=
    hrun.invariant Cluster.Matched (fun _ _ _ h hallowed hstep => h.step hallowed hstep)
      (.init N snapshotThreshold)
  exact hmatched.results call result (Or.inr hreturned)

/-- Two calls on one node, whose records are committed in the other order. -/
theorem proposal_result_is_own_reordered :
    ∃ s : Cluster Bool, ∃ result, s.phase 0 = .returned result ∧ result.raftIndex = 2 ∧
      ∃ position, result.raftIndex = position + 1 ∧ s.log[position]? = some (.proposal 0) := by
  obtain ⟨s, hrun, htest⟩ := exists_run_of_check (Cluster.step (N := Bool)) NumbersUnambiguous (.init Bool 0)
    [.number true ⟨"b", 1001, []⟩ true, .number true ⟨"b", 1001, [1]⟩ true, .submit 1, .submit 0,
      .commit (.proposal 1), .commit (.proposal 0), .apply true false, .apply true false, .finish 0]
    (fun s => decide (s.phase 0 = .returned ⟨2, 2⟩)) (by decide)
  have hreturned := of_decide_eq_true htest
  exact ⟨s, ⟨2, 2⟩, hreturned, rfl, proposal_result_is_own hrun hreturned⟩

/-- A caller on one node gets the index of the record that a caller on another node has proposed
under the same number, while its own record is not in the log. -/
theorem proposal_result_of_other_node :
    ∃ (actions : List (ClusterAction Bool)) (s : Cluster Bool) (result : ProposalResult),
      Run Cluster.step (fun _ _ => True) (.init Bool 0) actions s ∧ s.phase 0 = .returned result ∧
        result.raftIndex = 1 ∧ s.log = [.proposal 1] := by
  obtain ⟨s, hrun, htest⟩ := exists_run_of_check (Cluster.step (N := Bool)) (fun _ _ => True) (.init Bool 0)
    [.number true ⟨"b", 1001, []⟩ true, .submit 0, .number false ⟨"b", 1001, [1]⟩ true, .submit 1,
      .commit (.proposal 1), .apply true false, .finish 0]
    (fun s => decide (s.phase 0 = .returned ⟨1, 1⟩ ∧ s.log = [.proposal 1])) (by decide)
  obtain ⟨hreturned, hlog⟩ := of_decide_eq_true htest
  exact ⟨_, s, ⟨1, 1⟩, hrun, hreturned, rfl, hlog⟩

end SevenDB.Raft
