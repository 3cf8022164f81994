import SevenDB.Raft.Cluster

/-!
# Numbers, waiting callers and results

The calls made in one life of a node have distinct numbers, and only they are registered with
the node under these numbers. Taking a number and restarting a node keep this, and so does
every action that registers nobody else.
-/

namespace SevenDB.Raft

open SevenDB.Common

variable {N : Type}

/-- A result names the entry of a call. -/
def NamesEntryOf (log : List GroupEntry) (call : ℕ) (result : ProposalResult) : Prop :=
  ∃ position, result.raftIndex = position + 1 ∧ log[position]? = some (.proposal call)

/-- A call was made in the present life of its node. -/
def Cluster.Current (s : Cluster N) (c : ProposalCall N) : Prop := c.lifetime = s.lifetimes c.node

/-- What holds in a group whose numbers are unambiguous: the calls of the present life of a node
have distinct numbers that the node has given out, only they are registered with it, and results
name the entries of the calls that have them. -/
structure Cluster.Matched (s : Cluster N) : Prop where
  born : ∀ (i : ℕ) (c : ProposalCall N), s.calls[i]? = some c → c.lifetime ≤ s.lifetimes c.node
  numbers : ∀ (i : ℕ) (c : ProposalCall N), s.calls[i]? = some c → s.Current c →
    0 < c.wire.seq.toNat ∧ c.wire.seq.toNat ≤ (s.nodes c.node).nextSeq.toNat
  distinct : ∀ (i j : ℕ) (c d : ProposalCall N), s.calls[i]? = some c → s.calls[j]? = some d →
    s.Current c → s.Current d → c.node = d.node → c.wire.seq = d.wire.seq → i = j
  waiters : ∀ (node : N) (seq : UInt64) (i : ℕ), (s.nodes node).waitersSeq.lookup seq = some i →
    ∃ c, s.calls[i]? = some c ∧ s.Current c ∧ c.node = node ∧ c.wire.seq = seq
  results : ∀ (i : ℕ) (result : ProposalResult), s.phase i = .delivered result ∨ s.phase i = .returned result →
    NamesEntryOf s.log i result

theorem Cluster.Matched.init (N : Type) (snapshotThreshold : ℕ) :
    (Cluster.init N snapshotThreshold).Matched where
  born := fun i c hc => (by cases hc)
  numbers := fun i c hc => (by cases hc)
  distinct := fun i j c d hc => (by cases hc)
  waiters := fun node seq i hi => (by cases hi)
  results := by
    intro i result hresult
    rcases hresult with hresult | hresult <;> cases hresult

variable {s t : Cluster N} {node : N} {call : ℕ} {phase : CallPhase}

section Keep

variable (h : s.Matched) (hcalls : t.calls = s.calls) (hlives : t.lifetimes = s.lifetimes)
  (hresults : ∀ i result, t.phase i = .delivered result ∨ t.phase i = .returned result → NamesEntryOf t.log i result)
include h hcalls hlives hresults

/-- An action that makes no call, restarts no node and takes no number keeps a group matched when
new registrations are those of calls and new results name the right entries. -/
theorem Cluster.Matched.keep (hseq : ∀ node, (t.nodes node).nextSeq = (s.nodes node).nextSeq)
    (hwaiters : ∀ node seq i, (t.nodes node).waitersSeq.lookup seq = some i →
      (s.nodes node).waitersSeq.lookup seq = some i ∨
        ∃ c, s.calls[i]? = some c ∧ s.Current c ∧ c.node = node ∧ c.wire.seq = seq) : t.Matched where
  born := by
    rw [hcalls, hlives]
    exact h.born
  numbers := by
    intro i c hc hcurrent
    rw [hcalls] at hc
    rw [Cluster.Current, hlives] at hcurrent
    rw [hseq]
    exact h.numbers i c hc hcurrent
  distinct := by
    intro i j c d hc hd hcurrent hcurrent'
    rw [hcalls] at hc hd
    rw [Cluster.Current, hlives] at hcurrent hcurrent'
    exact h.distinct i j c d hc hd hcurrent hcurrent'
  waiters := by
    intro node seq i hi
    rw [hcalls]
    unfold Cluster.Current
    rw [hlives]
    rcases hwaiters node seq i hi with hbefore | hnew
    · exact h.waiters node seq i hbefore
    · exact hnew
  results := hresults

theorem Cluster.Matched.keepNodes (hnodes : t.nodes = s.nodes) : t.Matched := by
  refine h.keep hcalls hlives hresults (fun node => ?_) (fun node seq i hi => ?_)
  · rw [hnodes]
  · rw [hnodes] at hi
    exact Or.inl hi

theorem Cluster.Matched.keepAt [DecidableEq N] {changed : ShardRaftNode ℕ}
    (hnodes : t.nodes = Function.update s.nodes node changed) (hseq : changed.nextSeq = (s.nodes node).nextSeq)
    (hwaiters : ∀ seq i, changed.waitersSeq.lookup seq = some i → (s.nodes node).waitersSeq.lookup seq = some i ∨
      ∃ c, s.calls[i]? = some c ∧ s.Current c ∧ c.node = node ∧ c.wire.seq = seq) : t.Matched := by
  refine h.keep hcalls hlives hresults (fun other => ?_) (fun other seq i hi => ?_)
  · rw [hnodes]
    by_cases hother : other = node
    · rw [hother, Function.update_self, hseq]
    · rw [Function.update_of_ne hother]
  · rw [hnodes] at hi
    by_cases hother : other = node
    · subst hother
      rw [Function.update_self] at hi
      exact hwaiters seq i hi
    · rw [Function.update_of_ne hother] at hi
      exact Or.inl hi

end Keep

theorem NamesEntryOf.append {log : List GroupEntry} {result : ProposalResult} (h : NamesEntryOf log call result)
    (entry : GroupEntry) : NamesEntryOf (log ++ [entry]) call result := by
  obtain ⟨position, hindex, hentry⟩ := h
  refine ⟨position, hindex, ?_⟩
  rw [List.getElem?_append_left (List.getElem?_eq_some_iff.mp hentry).1]
  exact hentry

theorem results_update (h : s.Matched)
    (hphase : ∀ result, phase = .delivered result ∨ phase = .returned result → NamesEntryOf s.log call result)
    (i : ℕ) (result : ProposalResult)
    (hresult : Function.update s.phase call phase i = .delivered result ∨ Function.update s.phase call phase i = .returned result) :
    NamesEntryOf s.log i result := by
  by_cases hi : i = call
  · subst hi
    rw [Function.update_self] at hresult
    exact hphase result hresult
  · rw [Function.update_of_ne hi] at hresult
    exact h.results i result hresult

theorem results_unanswered (h : s.Matched) (hphase : phase = .failed ∨ phase = .proposed) (i : ℕ)
    (result : ProposalResult)
    (hresult : Function.update s.phase call phase i = .delivered result ∨ Function.update s.phase call phase i = .returned result) :
    NamesEntryOf s.log i result := by
  refine results_update h (fun found hfound => ?_) i result hresult
  rcases hphase with rfl | rfl <;> rcases hfound with hfound | hfound <;> cases hfound

theorem CallPhase.receive_cases {put : Option ProposalResult} {result : ProposalResult}
    (h : phase.receive put = .delivered result ∨ phase.receive put = .returned result) :
    put = some result ∨ phase = .delivered result ∨ phase = .returned result := by
  cases phase with
  | proposed =>
    cases put with
    | none => rcases h with h | h <;> cases h
    | some put =>
      rcases h with h | h
      · cases h
        exact Or.inl rfl
      · cases h
  | numbered | failed => rcases h with h | h <;> cases h
  | delivered _ | returned _ => exact Or.inr h

/-- An element of a list with one more element is an old one or the new one. -/
theorem getElem?_snoc {α : Type} {l : List α} {x y : α} {i : ℕ} (h : (l ++ [x])[i]? = some y) :
    l[i]? = some y ∨ i = l.length ∧ y = x := by
  rcases Nat.lt_trichotomy i l.length with hlt | heq | hgt
  · rw [List.getElem?_append_left hlt] at h
    exact Or.inl h
  · subst heq
    rw [List.getElem?_concat_length] at h
    cases h
    exact Or.inr ⟨rfl, rfl⟩
  · have hnone : (l ++ [x])[i]? = none := by
      rw [List.getElem?_eq_none_iff, List.length_append, List.length_singleton]
      exact hgt
    rw [hnone] at h
    cases h

variable [DecidableEq N]

/-- Taking a number that the node has not given out keeps a group matched. -/
theorem Cluster.Matched.number {record : RaftLogRecord} {waits : Bool} (h : s.Matched)
    (hroom : (s.nodes node).nextSeq.toNat + 1 < 2 ^ 64) (hstep : s.step (.number node record waits) = some t) :
    t.Matched := by
  have hseq : ((s.nodes node).nextSeq + 1).toNat = (s.nodes node).nextSeq.toNat + 1 := by
    rw [UInt64.toNat_add]
    exact Nat.mod_eq_of_lt hroom
  cases hstep
  refine ⟨fun i c hc => ?_, fun i c hc hcurrent => ?_, fun i j c d hc hd hcurrent hcurrent' hnode hsame => ?_,
    fun other seq i hi => ?_, h.results⟩
  · rcases getElem?_snoc hc with hold | ⟨_, rfl⟩
    · exact h.born i c hold
    · exact le_rfl
  · dsimp only
    rcases getElem?_snoc hc with hold | ⟨_, rfl⟩
    · obtain ⟨hpos, hle⟩ := h.numbers i c hold hcurrent
      refine ⟨hpos, hle.trans ?_⟩
      by_cases hnode : c.node = node
      · rw [hnode, Function.update_self, hseq]
        exact Nat.le_succ _
      · rw [Function.update_of_ne hnode]
    · rw [Function.update_self, hseq]
      exact ⟨Nat.succ_pos _, le_rfl⟩
  · have hfresh (k : ℕ) (e : ProposalCall N) (he : s.calls[k]? = some e) (hlive : s.Current e)
        (hat : e.node = node) : e.wire.seq ≠ (s.nodes node).nextSeq + 1 := by
      intro hclash
      have hle := (h.numbers k e he hlive).2
      rw [hclash, hseq, hat] at hle
      omega
    rcases getElem?_snoc hc with hold | ⟨hi, rfl⟩
    · rcases getElem?_snoc hd with hold' | ⟨_, rfl⟩
      · exact h.distinct i j c d hold hold' hcurrent hcurrent' hnode hsame
      · exact absurd hsame (hfresh i c hold hcurrent hnode)
    · rcases getElem?_snoc hd with hold' | ⟨hj, _⟩
      · exact absurd hsame.symm (hfresh j d hold' hcurrent' hnode.symm)
      · rw [hi, hj]
  · have hwaiter : (s.nodes other).waitersSeq.lookup seq = some i := by
      dsimp only at hi
      by_cases hother : other = node
      · subst hother
        rw [Function.update_self] at hi
        exact hi
      · rw [Function.update_of_ne hother] at hi
        exact hi
    obtain ⟨c, hc, hrest⟩ := h.waiters other seq i hwaiter
    refine ⟨c, ?_, hrest⟩
    dsimp only
    rw [List.getElem?_append_left (List.getElem?_eq_some_iff.mp hc).1]
    exact hc

/-- A restart keeps a group matched: nobody is registered with the new node, and no call was made
in its life yet. -/
theorem Cluster.Matched.restart {position : ℕ} (h : s.Matched) (hstep : s.step (.restart node position) = some t) :
    t.Matched := by
  simp only [Cluster.step] at hstep
  split at hstep
  · cases hstep
    have hold (i : ℕ) (c : ProposalCall N) (hc : s.calls[i]? = some c)
        (hcurrent : c.lifetime = Function.update s.lifetimes node (s.lifetimes node + 1) c.node) :
        c.node ≠ node ∧ s.Current c := by
      by_cases hnode : c.node = node
      · rw [hnode, Function.update_self] at hcurrent
        have hborn := h.born i c hc
        rw [hnode] at hborn
        omega
      · rw [Function.update_of_ne hnode] at hcurrent
        exact ⟨hnode, hcurrent⟩
    refine ⟨fun i c hc => ?_, fun i c hc hcurrent => ?_, fun i j c d hc hd hcurrent hcurrent' => ?_,
      fun other seq i hi => ?_, h.results⟩
    · refine (h.born i c hc).trans ?_
      dsimp only
      by_cases hnode : c.node = node
      · rw [hnode, Function.update_self]
        exact Nat.le_succ _
      · rw [Function.update_of_ne hnode]
    · obtain ⟨hnode, hlive⟩ := hold i c hc hcurrent
      dsimp only
      rw [Function.update_of_ne hnode]
      exact h.numbers i c hc hlive
    · exact h.distinct i j c d hc hd (hold i c hc hcurrent).2 (hold j d hd hcurrent').2
    · dsimp only at hi
      by_cases hother : other = node
      · subst hother
        rw [Function.update_self] at hi
        cases hi
      · rw [Function.update_of_ne hother] at hi
        obtain ⟨c, hc, hlive, hnode, hseq⟩ := h.waiters other seq i hi
        refine ⟨c, hc, ?_, hnode, hseq⟩
        unfold Cluster.Current
        dsimp only
        rw [hnode, Function.update_of_ne hother, ← hnode]
        exact hlive
  · cases hstep

end SevenDB.Raft
