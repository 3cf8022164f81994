import SevenDB.Emission.WorldStep

/-!
# Subscriptions written in one order

Pending entries are visited by commit index and filtered by position, epoch first. The two
orders agree where every write of a subscription has a larger index and an epoch counter that
is not smaller than those before it; the log, the pending list and the list a running tick has
to come to are then all in that order.
-/

namespace SevenDB.Emission

open SevenDB.Common

/-- Entries are written with increasing indices and epoch counters that never go back. -/
def OrderedWrites (sub : String) (w : World) : Action → Prop
  | .write target seq _ => target = sub →
      EmitSeq.zero.position < seq.position ∧ seq.index < 2 ^ 63 ∧
        ∀ e ∈ entriesFor sub w.written,
          e.index < seq.index ∧ e.seq.epoch.epochCounter ≤ seq.epoch.epochCounter
  | _ => True

instance (sub : String) (w : World) (action : Action) : Decidable (OrderedWrites sub w action) := by
  rcases action with _ | _ | _ | _ | _ | _ | _ | _ | _ | _ <;> dsimp only [OrderedWrites] <;> infer_instance

/-- The entries of a subscription are in one order, in the log and in the running tick. -/
structure Lineup (sub : String) (w : World) : Prop where
  increasing : (entriesFor sub w.written).Pairwise fun first second =>
    first.index < second.index ∧ first.seq.position < second.seq.position
  bounded : ∀ e ∈ entriesFor sub w.written, e.index < 2 ^ 63
  positive : ∀ e ∈ entriesFor sub w.written, EmitSeq.zero.position < e.seq.position
  fromLog : ∀ e : OutboxEntry, e.subID = sub → w.mgr.IsPending e → e ∈ entriesFor sub w.written
  todoFromLog : ∀ e ∈ w.pc.todo sub, e ∈ entriesFor sub w.written
  todoIncreasing : (w.pc.todo sub).Pairwise fun first second => first.seq.position < second.seq.position

section LineupRules

variable {sub : String} {w next : World} {action : Action}

theorem Lineup.init (bucketID : String) (current : EpochID) (proposer : Bool) :
    Lineup sub (World.init bucketID current proposer) where
  increasing := List.Pairwise.nil
  bounded e he := by cases he
  positive e he := by cases he
  fromLog e _ hpending := by cases hpending
  todoFromLog e he := by cases he
  todoIncreasing := List.Pairwise.nil

/-- In the log the order of the indices is the order of the positions. -/
theorem Lineup.position_lt (h : Lineup sub w) {first second : OutboxEntry}
    (hfirst : first ∈ entriesFor sub w.written) (hsecond : second ∈ entriesFor sub w.written)
    (hlt : first.index < second.index) : first.seq.position < second.seq.position := by
  let before (a b : OutboxEntry) : Prop := a.index < b.index ∧ a.seq.position < b.seq.position
  have hne : first ≠ second := fun heq => absurd (congrArg OutboxEntry.index heq) (Nat.ne_of_lt hlt)
  have : Std.Symm fun a b => before a b ∨ before b a := ⟨fun _ _ => Or.symm⟩
  have heither : (entriesFor sub w.written).Pairwise fun a b => before a b ∨ before b a :=
    h.increasing.imp Or.inl
  rcases heither.forall hfirst hsecond hne with hrel | hrel
  · exact hrel.2
  · exact absurd hrel.1 (Nat.not_lt_of_gt hlt)

theorem Lineup.pending_increasing (h : Lineup sub w) :
    (w.mgr.pending sub).Pairwise fun first second => first.seq.position < second.seq.position := by
  have hlog (e : OutboxEntry) (he : e ∈ w.mgr.pending sub) : e ∈ entriesFor sub w.written := by
    obtain ⟨hsub, hpending⟩ := (w.mgr.mem_pending_iff sub e).mp he
    exact h.fromLog e hsub hpending
  have hindices : (w.mgr.pending sub).Pairwise fun first second => first.index < second.index := by
    apply OutboxState.pendingSorted_increasing
    intro idx e hentry
    obtain ⟨_, hidx⟩ := OutboxState.entryAt_filed hentry
    refine h.bounded e (hlog e ((w.mgr.ob.mem_pendingSorted sub e).mpr ?_))
    rw [hidx]
    exact hentry
  refine List.Pairwise.imp_of_mem ?_ hindices
  intro first second hfirst hsecond hlt
  exact h.position_lt (hlog first hfirst) (hlog second hsecond) hlt

theorem OrderedWrites.position_lt {seq : EmitSeq} {delta : List UInt8}
    (hallowed : OrderedWrites sub w (.write sub seq delta)) {e : OutboxEntry}
    (he : e ∈ entriesFor sub w.written) : e.seq.position < seq.position := by
  obtain ⟨hindex, hepoch⟩ := (hallowed rfl).2.2 e he
  rw [EmitSeq.position_lt_iff]
  rcases Nat.lt_or_eq_of_le (UInt64.le_iff_toNat_le.mp hepoch) with hlt | heq
  · exact Or.inl hlt
  · exact Or.inr ⟨UInt64.toNat_inj.mp heq, hindex⟩

theorem Lineup.todo_step (h : Lineup sub w) (hstep : w.step action = some next) :
    (∀ e ∈ next.pc.todo sub, e ∈ entriesFor sub w.written) ∧
      (next.pc.todo sub).Pairwise fun first second => first.seq.position < second.seq.position := by
  rcases World.step_todo hstep sub with hsame | hnil | hpending | ⟨e, hhead, _⟩
  · rw [hsame]
    exact ⟨h.todoFromLog, h.todoIncreasing⟩
  · rw [hnil]
    exact ⟨fun e he => (by cases he), List.Pairwise.nil⟩
  · rw [hpending]
    refine ⟨fun e he => ?_, h.pending_increasing⟩
    obtain ⟨hsub, hentry⟩ := (w.mgr.mem_pending_iff sub e).mp he
    exact h.fromLog e hsub hentry
  · have hlog := h.todoFromLog
    have hincreasing := h.todoIncreasing
    rw [hhead] at hlog hincreasing
    exact ⟨fun x hx => hlog x (List.mem_cons_of_mem e hx), (List.pairwise_cons.mp hincreasing).2⟩

theorem Lineup.step (h : Lineup sub w) (hallowed : OrderedWrites sub w action)
    (hstep : w.step action = some next) : Lineup sub next := by
  obtain ⟨htodo, hincreasing⟩ := h.todo_step hstep
  rcases World.step_written hstep sub with hsame | ⟨seq, delta, rfl, hnew⟩
  · refine ⟨hsame ▸ h.increasing, hsame ▸ h.bounded, hsame ▸ h.positive, ?_, hsame ▸ htodo, hincreasing⟩
    intro e hsub hpending
    rcases World.step_pending hstep hpending with hold | rfl
    · exact hsame ▸ h.fromLog e hsub hold
    · cases hstep
      rw [mem_entriesFor]
      exact ⟨List.mem_append_right _ (List.mem_singleton_self _), hsub⟩
  · have hmem (e : OutboxEntry) : e ∈ entriesFor sub next.written ↔
        e ∈ entriesFor sub w.written ∨ e = ⟨sub, seq, delta⟩ := by
      rw [hnew, List.mem_append, List.mem_singleton]
    obtain ⟨hpositive, hbounded, hnext⟩ := hallowed rfl
    constructor
    · rw [hnew, List.pairwise_append]
      refine ⟨h.increasing, List.pairwise_singleton _ _, ?_⟩
      intro first hfirst second hsecond
      rw [List.mem_singleton.mp hsecond]
      exact ⟨(hnext first hfirst).1, hallowed.position_lt hfirst⟩
    · intro e he
      rcases (hmem e).mp he with hold | rfl
      · exact h.bounded e hold
      · exact hbounded
    · intro e he
      rcases (hmem e).mp he with hold | rfl
      · exact h.positive e hold
      · exact hpositive
    · intro e hsub hpending
      rcases World.step_pending hstep hpending with hold | heq
      · exact (hmem e).mpr (Or.inl (h.fromLog e hsub hold))
      · cases heq
        exact (hmem e).mpr (Or.inr rfl)
    · intro e he
      exact (hmem e).mpr (Or.inl (htodo e he))
    · exact hincreasing

end LineupRules

end SevenDB.Emission
