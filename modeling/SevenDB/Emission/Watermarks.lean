import SevenDB.Emission.ReconnectLaw

/-!
# Watermarks along the life of a subscription

A subscription is followed through the operations on a manager, under the new name after every
rebind that moves it. Its last acknowledgment never goes back: an acknowledgment is compared
with the one recorded, and a rebind keeps the later of two. A rebind treats the compaction
watermark alike, but a purge records its own position without a comparison, so the watermark
goes back exactly where a purge is behind it.
-/

namespace SevenDB.Emission

open SevenDB.Common

/-- A watermark that was there is still there, and not before its old position. -/
def NotLowered (before after : Option EmitSeq) : Prop :=
  ∀ old ∈ before, ∃ new ∈ after, old.position ≤ new.position

section NotLowered

variable {first second third : Option EmitSeq}

theorem NotLowered.refl (mark : Option EmitSeq) : NotLowered mark mark :=
  fun old hold => ⟨old, hold, le_rfl⟩

/-- Two changes that do not lower a watermark do not lower it together. -/
theorem NotLowered.trans (hfirst : NotLowered first second) (hsecond : NotLowered second third) :
    NotLowered first third := by
  intro old hold
  obtain ⟨middle, hmiddle, hle⟩ := hfirst old hold
  obtain ⟨new, hnew, hle'⟩ := hsecond middle hmiddle
  exact ⟨new, hnew, hle.trans hle'⟩

/-- A position that replaces a watermark lowers it exactly when it is before it. -/
theorem notLowered_some_iff {mark : Option EmitSeq} {new : EmitSeq} :
    NotLowered mark (some new) ↔ ¬ ∃ old ∈ mark, new.position < old.position := by
  simp [NotLowered]

theorem notLowered_laterMark_moved (moved cur : Option EmitSeq) : NotLowered moved (laterMark moved cur) := by
  rintro v rfl
  rw [laterMark]
  cases cur with
  | none => exact ⟨v, rfl, le_rfl⟩
  | some cur =>
    by_cases hnewer : v.newer cur = true
    · exact ⟨v, by simp [isNewer, hnewer], le_rfl⟩
    · refine ⟨cur, by simp [isNewer, hnewer], ?_⟩
      rw [EmitSeq.newer_iff] at hnewer
      exact not_lt.mp hnewer

/-- The later of two watermarks is not before the one that was there. -/
theorem notLowered_laterMark_cur (moved cur : Option EmitSeq) : NotLowered cur (laterMark moved cur) := by
  rintro v rfl
  cases moved with
  | none => exact ⟨v, rfl, le_rfl⟩
  | some moved =>
    rw [laterMark]
    by_cases hnewer : moved.newer v = true
    · refine ⟨moved, by simp [isNewer, hnewer], ?_⟩
      exact ((EmitSeq.newer_iff moved v).mp hnewer).le
    · exact ⟨v, by simp [isNewer, hnewer], le_rfl⟩

theorem notLowered_moveMark (marks : Table String EmitSeq) {oldSub newSub : String} (hne : oldSub ≠ newSub)
    (sub : String) :
    NotLowered (marks.lookup sub)
      (Finmap.lookup (if sub = oldSub then newSub else sub) (moveMark marks oldSub newSub)) := by
  by_cases hmoved : sub = oldSub
  · rw [if_pos hmoved, lookup_moveMark marks hne, if_pos rfl, hmoved]
    exact notLowered_laterMark_moved _ _
  · rw [if_neg hmoved, lookup_moveMark marks hne]
    by_cases hnew : sub = newSub
    · rw [if_pos hnew, hnew]
      exact notLowered_laterMark_cur _ _
    · rw [if_neg hnew, if_neg hmoved]
      exact NotLowered.refl _

end NotLowered

/-- The name of a subscription after an operation. A rebind that has found it gives it a new one. -/
def ManagerOp.follow (m : Manager) (sub : String) : ManagerOp → String
  | .rebind order fp oldClientID newClientID =>
    let result := m.rebindByFingerprint order fp oldClientID newClientID
    if result.oldSub ≠ "" ∧ sub = result.oldSub then result.newSub else sub
  | .write _ _ _ => sub
  | .purge _ _ => sub
  | .ack _ _ => sub
  | .setCurrentEpoch _ => sub

/-- A manager, and the present name of the subscription that is followed. -/
structure Followed where
  acked : AckedManager
  sub : String

/-- Apply an operation and follow the subscription. -/
def Followed.step (f : Followed) (op : ManagerOp) : Option Followed :=
  (f.acked.step op).map fun next => ⟨next, op.follow f.acked.mgr f.sub⟩

/-- The last acknowledgment of the subscription that is followed. -/
def Followed.lastAck (f : Followed) : Option EmitSeq := f.acked.mgr.lastAck.lookup f.sub

/-- The compaction watermark of the subscription that is followed. -/
def Followed.compactThrough (f : Followed) : Option EmitSeq := f.acked.mgr.compactThrough.lookup f.sub

/-- An operation purges the subscription that is followed up to a position before its watermark. -/
def Followed.PurgesBehind (f : Followed) : ManagerOp → Prop
  | .purge sub upTo => sub = f.sub ∧ ∃ old ∈ f.compactThrough, upTo.position < old.position
  | .write _ _ _ => False
  | .ack _ _ => False
  | .rebind _ _ _ _ => False
  | .setCurrentEpoch _ => False

instance (f : Followed) (op : ManagerOp) : Decidable (f.PurgesBehind op) :=
  match op with
  | .purge sub upTo =>
    decidable_of_iff (sub = f.sub ∧ f.compactThrough.any (fun old => old.newer upTo) = true) (by
      simp [Followed.PurgesBehind, Option.any_eq_true, EmitSeq.newer_iff])
  | .write _ _ _ => .isFalse id
  | .ack _ _ => .isFalse id
  | .rebind _ _ _ _ => .isFalse id
  | .setCurrentEpoch _ => .isFalse id

/-- A rebind lowers no watermark, of whichever kind, of the subscription that is followed. -/
theorem notLowered_rebind (m : Manager) (marks : Manager → Table String EmitSeq)
    (hmarks : ∀ oldSub newSub, marks (m.moveSub oldSub newSub) = moveMark (marks m) oldSub newSub)
    (sub : String) (order : SearchOrder) (fp : UInt64) (oldClientID newClientID : String) :
    NotLowered ((marks m).lookup sub)
      ((marks (m.rebindByFingerprint order fp oldClientID newClientID).mgr).lookup
        ((ManagerOp.rebind order fp oldClientID newClientID).follow m sub)) := by
  rw [Manager.rebindByFingerprint_mgr, ManagerOp.follow]
  generalize m.rebindByFingerprint order fp oldClientID newClientID = result
  by_cases hstays : result.oldSub = "" ∨ result.oldSub = result.newSub
  · have hsame : (if result.oldSub ≠ "" ∧ sub = result.oldSub then result.newSub else sub) = sub := by
      split
      · next hfound => exact (hfound.2.trans (hstays.resolve_left hfound.1)).symm
      · rfl
    rw [if_pos hstays, hsame]
    exact NotLowered.refl _
  · rw [if_neg hstays, hmarks]
    rw [not_or] at hstays
    have hname : (if result.oldSub ≠ "" ∧ sub = result.oldSub then result.newSub else sub) =
        if sub = result.oldSub then result.newSub else sub := by
      simp only [ne_eq, hstays.1, not_false_eq_true, true_and]
    rw [hname]
    exact notLowered_moveMark (marks m) hstays.2 sub

theorem Followed.lastAck_step {f g : Followed} {op : ManagerOp} (hstep : f.step op = some g) :
    NotLowered f.lastAck g.lastAck := by
  cases op with
  | ack sub seq =>
    cases hstep
    change NotLowered _ (Finmap.lookup f.sub (f.acked.mgr.validateAck sub seq).2.lastAck)
    rw [Manager.lastAck_validateAck]
    by_cases haccepted : f.sub = sub ∧ (f.acked.mgr.validateAck sub seq).1 = true
    · rw [if_pos haccepted, notLowered_some_iff]
      rintro ⟨old, hold, hbehind⟩
      rw [Followed.lastAck, haccepted.1] at hold
      exact lt_asymm hbehind ((Manager.validateAck_accepted_iff _ _ _).mp haccepted.2 old hold)
    · rw [if_neg haccepted]
      exact NotLowered.refl _
  | rebind order fp oldClientID newClientID =>
    simp only [Followed.step, AckedManager.step] at hstep
    split at hstep
    · cases hstep
      exact notLowered_rebind f.acked.mgr Manager.lastAck (fun _ _ => rfl) f.sub order fp oldClientID newClientID
    · cases hstep
  | write | purge | setCurrentEpoch =>
    cases hstep
    exact NotLowered.refl _

/-- An operation lowers the compaction watermark exactly when it is a purge behind it. -/
theorem Followed.compactThrough_step_iff {f g : Followed} {op : ManagerOp} (hstep : f.step op = some g) :
    NotLowered f.compactThrough g.compactThrough ↔ ¬ f.PurgesBehind op := by
  cases op with
  | purge sub upTo =>
    cases hstep
    change NotLowered _ (Finmap.lookup f.sub (f.acked.mgr.compactThrough.insert sub upTo)) ↔
      ¬ (sub = f.sub ∧ _)
    rw [Table.lookup_insert_eq_ite]
    by_cases hsub : f.sub = sub
    · rw [if_pos hsub, notLowered_some_iff]
      simp [hsub]
    · rw [if_neg hsub]
      exact iff_of_true (NotLowered.refl _) fun hbehind => hsub hbehind.1.symm
  | ack sub seq =>
    cases hstep
    have hsame : (f.acked.mgr.validateAck sub seq).2.compactThrough = f.acked.mgr.compactThrough := by
      unfold Manager.validateAck
      split
      · split <;> rfl
      · rfl
    change NotLowered _ (Finmap.lookup f.sub (f.acked.mgr.validateAck sub seq).2.compactThrough) ↔ ¬ False
    rw [hsame]
    exact iff_of_true (NotLowered.refl _) not_false
  | rebind order fp oldClientID newClientID =>
    simp only [Followed.step, AckedManager.step] at hstep
    split at hstep
    · cases hstep
      refine iff_of_true ?_ not_false
      exact notLowered_rebind f.acked.mgr Manager.compactThrough (fun _ _ => rfl) f.sub order fp oldClientID
        newClientID
    · cases hstep
  | write | setCurrentEpoch =>
    cases hstep
    exact iff_of_true (NotLowered.refl _) not_false

/-- Along every sequence of operations the last acknowledgment of a subscription never goes back, and its
compaction watermark never goes back exactly when none of its purges is behind the watermark. -/
theorem watermarks_never_go_back_iff {f g : Followed} {ops : List ManagerOp}
    (hrun : Run Followed.step (fun _ _ => True) f ops g) :
    HoldsBetween Followed.step (fun earlier later => NotLowered earlier.lastAck later.lastAck) f ops ∧
    (HoldsBetween Followed.step (fun earlier later => NotLowered earlier.compactThrough later.compactThrough)
        f ops ↔
      Run Followed.step (fun state op => ¬ state.PurgesBehind op) f ops g) := by
  constructor
  · refine (hrun.holdsBetween_iff (fun _ => NotLowered.refl _) (fun _ _ _ hfirst hsecond => hfirst.trans hsecond)
      fun _ _ _ hstep => ?_).mpr (hrun.mono fun _ _ _ => not_false)
    exact iff_of_true (Followed.lastAck_step hstep) not_false
  · exact hrun.holdsBetween_iff (fun _ => NotLowered.refl _) (fun _ _ _ hfirst hsecond => hfirst.trans hsecond)
      fun _ _ _ hstep => Followed.compactThrough_step_iff hstep

/-- A subscription that is purged and acknowledged further each time, and renamed in between. -/
theorem watermarks_never_go_back_renamed :
    ∃ g, Run Followed.step (fun state op => ¬ state.PurgesBehind op) ⟨AckedManager.init "b", "old:7"⟩
        [.ack "old:7" ⟨⟨"b", 1⟩, 3⟩, .purge "old:7" ⟨⟨"b", 1⟩, 3⟩, .rebind ⟨[], ["old:7"], ["old:7"]⟩ 7 "old" "new",
          .purge "new:7" ⟨⟨"b", 1⟩, 5⟩] g ∧
      g.sub = "new:7" ∧ g.lastAck = some ⟨⟨"b", 1⟩, 3⟩ ∧ g.compactThrough = some ⟨⟨"b", 1⟩, 5⟩ ∧
      HoldsBetween Followed.step (fun earlier later => NotLowered earlier.compactThrough later.compactThrough)
        ⟨AckedManager.init "b", "old:7"⟩
        [.ack "old:7" ⟨⟨"b", 1⟩, 3⟩, .purge "old:7" ⟨⟨"b", 1⟩, 3⟩, .rebind ⟨[], ["old:7"], ["old:7"]⟩ 7 "old" "new",
          .purge "new:7" ⟨⟨"b", 1⟩, 5⟩] := by
  refine exists_run_imp _ (fun g => g.sub = "new:7" ∧ g.lastAck = some ⟨⟨"b", 1⟩, 3⟩ ∧
    g.compactThrough = some ⟨⟨"b", 1⟩, 5⟩) (by decide +kernel) (fun _ _ => id) fun g hrun ⟨hsub, hack, hmark⟩ => ?_
  exact ⟨hsub, hack, hmark, (watermarks_never_go_back_iff (hrun.mono fun _ _ _ => trivial)).2.mpr hrun⟩

/-- A purge that comes late takes the compaction watermark back from index five to index three. -/
theorem late_purge_lowers_watermark :
    ∃ s g, Run Followed.step (fun _ _ => True) ⟨AckedManager.init "b", "old:7"⟩
        [.purge "old:7" ⟨⟨"b", 1⟩, 5⟩] s ∧
      Run Followed.step (fun _ _ => True) s [.purge "old:7" ⟨⟨"b", 1⟩, 3⟩] g ∧
      s.compactThrough = some ⟨⟨"b", 1⟩, 5⟩ ∧ g.compactThrough = some ⟨⟨"b", 1⟩, 3⟩ ∧
      ¬ NotLowered s.compactThrough g.compactThrough := by
  obtain ⟨s, hs, htest⟩ := exists_run_of_check Followed.step (fun _ _ => True)
    ⟨AckedManager.init "b", "old:7"⟩ [.purge "old:7" ⟨⟨"b", 1⟩, 5⟩]
    (fun s => s.compactThrough == some ⟨⟨"b", 1⟩, 5⟩ && s.PurgesBehind (.purge "old:7" ⟨⟨"b", 1⟩, 3⟩) &&
      (s.step (.purge "old:7" ⟨⟨"b", 1⟩, 3⟩)).any fun g => g.compactThrough == some ⟨⟨"b", 1⟩, 3⟩)
    (by decide +kernel)
  simp only [Bool.and_eq_true, beq_iff_eq, decide_eq_true_eq, Option.any_eq_true] at htest
  obtain ⟨⟨hmark, hbehind⟩, g, hstep, hlate⟩ := htest
  refine ⟨s, g, hs, .single trivial hstep, hmark, hlate, ?_⟩
  rw [Followed.compactThrough_step_iff hstep, not_not]
  exact hbehind

end SevenDB.Emission
