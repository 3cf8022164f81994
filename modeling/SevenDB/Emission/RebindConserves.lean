import SevenDB.Emission.Rebind

/-!
# What a rebind keeps

When the old name is known, a rebind moves all that the manager holds from it to the new name:
no entry is lost, the later watermark of the two stays, and every other subscription is left
alone.
-/

namespace SevenDB.Emission

open SevenDB.Common

/-- Two managers hold the same under a name: the pending entries and both watermarks. -/
structure Manager.Agrees (m n : Manager) (sub : String) : Prop where
  pending : n.pending sub = m.pending sub
  lastAck : n.lastAck.lookup sub = m.lastAck.lookup sub
  compactThrough : n.compactThrough.lookup sub = m.compactThrough.lookup sub

theorem Manager.Agrees.refl (m : Manager) (sub : String) : m.Agrees m sub := ⟨rfl, rfl, rfl⟩

/-- The lexicographic maximum of two watermarks, of which either can be absent. -/
structure IsLexMax (first second top : Option EmitSeq) : Prop where
  chosen : top = first ∨ top = second
  first_le : ∀ seq, first = some seq → ∃ last, top = some last ∧ seq.position ≤ last.position
  second_le : ∀ seq, second = some seq → ∃ last, top = some last ∧ seq.position ≤ last.position

/-- The watermark that a move leaves is the maximum of the two it found. -/
theorem isLexMax_laterMark (moved cur : Option EmitSeq) : IsLexMax moved cur (laterMark moved cur) := by
  cases moved with
  | none => exact ⟨Or.inr rfl, fun seq h => (by cases h), fun seq h => ⟨seq, h, le_rfl⟩⟩
  | some v =>
    cases cur with
    | none => exact ⟨Or.inl rfl, fun seq h => ⟨seq, h, le_rfl⟩, fun seq h => (by cases h)⟩
    | some w =>
      by_cases hnewer : v.newer w = true
      · have htop : laterMark (some v) (some w) = some v := if_pos hnewer
        have hlt := (v.newer_iff w).mp hnewer
        rw [htop]
        refine ⟨Or.inl rfl, fun seq h => ⟨seq, h, le_rfl⟩, fun seq h => ⟨v, rfl, ?_⟩⟩
        cases h
        exact hlt.le
      · have htop : laterMark (some v) (some w) = some w := if_neg hnewer
        have hle := not_lt.mp fun h => hnewer ((v.newer_iff w).mpr h)
        rw [htop]
        refine ⟨Or.inr rfl, fun seq h => ⟨w, rfl, ?_⟩, fun seq h => ⟨seq, h, le_rfl⟩⟩
        cases h
        exact hle

section Moving

variable (m : Manager) {oldSub newSub : String} (hne : oldSub ≠ newSub)
include hne

theorem Manager.pending_moveSub_old : (m.moveSub oldSub newSub).pending oldSub = [] := by
  apply List.eq_nil_iff_forall_not_mem.mpr
  intro entry hentry
  rw [Manager.pending, OutboxState.mem_pendingSorted] at hentry
  change (m.ob.moveSub oldSub newSub).entryAt oldSub entry.seq.commitIndex = some entry at hentry
  rw [OutboxState.entryAt_moveSub _ hne, if_neg hne, if_pos rfl] at hentry
  cases hentry

/-- After a move the new name has its own entries and those moved, when no two of them have the
same commit index. -/
theorem Manager.mem_pending_moveSub_new
    (hdisjoint : ∀ moved ∈ m.pending oldSub, ∀ kept ∈ m.pending newSub,
      moved.seq.commitIndex ≠ kept.seq.commitIndex) (entry : OutboxEntry) :
    entry ∈ (m.moveSub oldSub newSub).pending newSub ↔
      entry ∈ m.pending newSub ∨ ∃ moved ∈ m.pending oldSub, entry = { moved with subID := newSub } := by
  have hmove := m.ob.entryAt_moveSub hne newSub entry.seq.commitIndex
  rw [if_pos rfl] at hmove
  rw [Manager.pending, OutboxState.mem_pendingSorted]
  change (m.ob.moveSub oldSub newSub).entryAt newSub entry.seq.commitIndex = some entry ↔ _
  rw [hmove, Option.or_eq_some_iff, Option.map_eq_some_iff, Option.map_eq_none_iff]
  constructor
  · rintro (⟨moved, hmoved, rfl⟩ | ⟨_, hkept⟩)
    · exact Or.inr ⟨moved, (m.ob.mem_pendingSorted oldSub moved).mpr hmoved, rfl⟩
    · exact Or.inl ((m.ob.mem_pendingSorted newSub entry).mpr hkept)
  · rintro (hkept | ⟨moved, hmoved, rfl⟩)
    · refine Or.inr ⟨?_, (m.ob.mem_pendingSorted newSub entry).mp hkept⟩
      cases hclash : m.ob.entryAt oldSub entry.seq.commitIndex with
      | none => rfl
      | some moved =>
        have hindex := (OutboxState.entryAt_filed hclash).2
        have hmoved : moved ∈ m.pending oldSub := by
          rw [Manager.pending, OutboxState.mem_pendingSorted, hindex]
          exact hclash
        exact absurd hindex (hdisjoint moved hmoved entry hkept)
    · exact Or.inl ⟨moved, (m.ob.mem_pendingSorted oldSub moved).mp hmoved, rfl⟩

theorem Manager.agrees_moveSub {sub : String} (hold : sub ≠ oldSub) (hnew : sub ≠ newSub) :
    m.Agrees (m.moveSub oldSub newSub) sub where
  pending := by
    apply OutboxState.pendingSorted_congr
    intro idx
    change (m.ob.moveSub oldSub newSub).entryAt sub idx = _
    rw [OutboxState.entryAt_moveSub _ hne, if_neg hnew, if_neg hold]
  lastAck := by
    change Finmap.lookup sub (moveMark m.lastAck oldSub newSub) = _
    rw [lookup_moveMark _ hne, if_neg hnew, if_neg hold]
  compactThrough := by
    change Finmap.lookup sub (moveMark m.compactThrough oldSub newSub) = _
    rw [lookup_moveMark _ hne, if_neg hnew, if_neg hold]

end Moving

/-- Names under one fingerprint are told apart by their clients. -/
theorem subIDOf_left_injective {first second : String} {fp : UInt64}
    (h : subIDOf first fp = subIDOf second fp) : first = second := by
  have hchars := congrArg String.toList h
  simp only [subIDOf, String.toList_append] at hchars
  exact String.toList_injective (List.append_cancel_right (List.append_cancel_right hchars))

theorem subIDOf_ne_empty (clientID : String) (fp : UInt64) : subIDOf clientID fp ≠ "" := by
  intro h
  have hchars := congrArg String.toList h
  simp [subIDOf] at hchars

/-- The names that the manager knows are those with pending entries or a watermark. -/
theorem Manager.knows_iff (m : Manager) (sub : String) :
    m.knows sub = true ↔ m.pending sub ≠ [] ∨ sub ∈ m.lastAck ∨ sub ∈ m.compactThrough := by
  have hpending : sub ∈ m.ob.bySub ↔ m.pending sub ≠ [] := by
    rw [← List.length_pos_iff, Manager.pending, OutboxState.length_pendingSorted, Finset.card_pos,
      Finset.nonempty_iff_ne_empty]
    constructor
    · intro hmem
      obtain ⟨table, htable⟩ := Finmap.mem_iff.mp hmem
      rw [OutboxState.entries, htable]
      exact (m.ob.filed sub table htable).1
    · intro hkeys
      by_contra hmem
      rw [OutboxState.entries, Finmap.lookup_eq_none.mpr hmem] at hkeys
      exact hkeys Finmap.keys_empty
  rw [Manager.knows, Bool.or_eq_true, Bool.or_eq_true, decide_eq_true_iff, decide_eq_true_iff,
    decide_eq_true_iff, hpending, or_assoc]

section Known

variable {m : Manager} {fp : UInt64} {oldClientID : String} (hfp : fp ≠ 0) (hold : oldClientID ≠ "")
  (hknown : m.knows (subIDOf oldClientID fp) = true)
include hfp hold hknown

theorem Manager.planRebind_known (order : SearchOrder) (newClientID : String) :
    m.planRebind order fp oldClientID newClientID =
      ⟨fp, subIDOf oldClientID fp, subIDOf newClientID fp⟩ := by
  rw [Manager.planRebind, if_pos hfp]
  dsimp only
  rw [if_pos ⟨hold, hknown⟩]

/-- A rebind of a known name to another client moves all it holds, whatever the search order. -/
theorem Manager.rebindByFingerprint_known (order : SearchOrder) {newClientID : String}
    (hne : oldClientID ≠ newClientID) :
    m.rebindByFingerprint order fp oldClientID newClientID =
      ⟨m.moveSub (subIDOf oldClientID fp) (subIDOf newClientID fp), subIDOf oldClientID fp,
        subIDOf newClientID fp, (m.pending (subIDOf oldClientID fp)).length⟩ := by
  have hsubs : subIDOf oldClientID fp ≠ subIDOf newClientID fp := fun h => hne (subIDOf_left_injective h)
  have hlocate : RebindPlan.locate ⟨fp, subIDOf oldClientID fp, subIDOf newClientID fp⟩ order =
      subIDOf oldClientID fp := if_neg fun h => subIDOf_ne_empty _ _ h.1
  unfold Manager.rebindByFingerprint
  rw [Manager.planRebind_known hfp hold hknown]
  dsimp only
  rw [hlocate, if_neg (subIDOf_ne_empty _ _), if_neg (subIDOf_ne_empty _ _)]
  dsimp only
  rw [if_neg hsubs, Manager.pending, OutboxState.length_pendingSorted]

end Known

/-- A rebind of a known subscription to another client conserves its entries and watermarks. -/
theorem Manager.rebind_conserves (m : Manager) (order : SearchOrder) (fp : UInt64)
    (oldClientID newClientID : String) (hfp : fp ≠ 0) (hold : oldClientID ≠ "")
    (hne : oldClientID ≠ newClientID)
    (hknown : m.pending (subIDOf oldClientID fp) ≠ [] ∨ subIDOf oldClientID fp ∈ m.lastAck ∨
      subIDOf oldClientID fp ∈ m.compactThrough)
    (hdisjoint : ∀ moved ∈ m.pending (subIDOf oldClientID fp), ∀ kept ∈ m.pending (subIDOf newClientID fp),
      moved.seq.commitIndex ≠ kept.seq.commitIndex) :
    let result := m.rebindByFingerprint order fp oldClientID newClientID
    let oldSub := subIDOf oldClientID fp
    let newSub := subIDOf newClientID fp
    (∀ entry, entry ∈ result.mgr.pending newSub ↔
      entry ∈ m.pending newSub ∨ ∃ moved ∈ m.pending oldSub, entry = { moved with subID := newSub }) ∧
    (result.mgr.pending oldSub = [] ∧ result.mgr.lastAck.lookup oldSub = none ∧
      result.mgr.compactThrough.lookup oldSub = none) ∧
    (IsLexMax (m.lastAck.lookup oldSub) (m.lastAck.lookup newSub) (result.mgr.lastAck.lookup newSub) ∧
      IsLexMax (m.compactThrough.lookup oldSub) (m.compactThrough.lookup newSub)
        (result.mgr.compactThrough.lookup newSub)) ∧
    (result.oldSub = oldSub ∧ result.newSub = newSub ∧ result.moved = (m.pending oldSub).length) ∧
    ∀ sub, sub ≠ oldSub → sub ≠ newSub → m.Agrees result.mgr sub := by
  have hsubs : subIDOf oldClientID fp ≠ subIDOf newClientID fp := fun h => hne (subIDOf_left_injective h)
  rw [m.rebindByFingerprint_known hfp hold ((m.knows_iff _).mpr hknown) order hne]
  dsimp only
  have hmark (marks : Table String EmitSeq) :
      (moveMark marks (subIDOf oldClientID fp) (subIDOf newClientID fp)).lookup (subIDOf oldClientID fp) =
        none := by
    rw [lookup_moveMark _ hsubs, if_neg hsubs, if_pos rfl]
  have hmax (marks : Table String EmitSeq) :
      IsLexMax (marks.lookup (subIDOf oldClientID fp)) (marks.lookup (subIDOf newClientID fp))
        ((moveMark marks (subIDOf oldClientID fp) (subIDOf newClientID fp)).lookup
          (subIDOf newClientID fp)) := by
    rw [lookup_moveMark _ hsubs, if_pos rfl]
    exact isLexMax_laterMark _ _
  refine ⟨m.mem_pending_moveSub_new hsubs hdisjoint, ⟨m.pending_moveSub_old hsubs, ?_, ?_⟩, ⟨?_, ?_⟩,
    ⟨rfl, rfl, rfl⟩, fun sub hsub hother => m.agrees_moveSub hsubs hsub hother⟩
  · exact hmark m.lastAck
  · exact hmark m.compactThrough
  · exact hmax m.lastAck
  · exact hmax m.compactThrough

/-- Both clients of a fingerprint have a pending entry, and the old one has acknowledged. -/
theorem Manager.rebind_conserves_merge :
    let m := (((newManager "b").applyOutboxWrite "old:7" ⟨⟨"b", 1⟩, 4⟩ [1]).applyOutboxWrite "new:7"
      ⟨⟨"b", 1⟩, 5⟩ [2]).validateAck "old:7" ⟨⟨"b", 1⟩, 3⟩
    ∀ order entry, entry ∈ (m.2.rebindByFingerprint order 7 "old" "new").mgr.pending (subIDOf "new" 7) ↔
      entry ∈ m.2.pending (subIDOf "new" 7) ∨
        ∃ moved ∈ m.2.pending (subIDOf "old" 7), entry = { moved with subID := subIDOf "new" 7 } :=
  fun order => (Manager.rebind_conserves _ order 7 "old" "new" (by decide) (by decide) (by decide)
    (Or.inl (by decide)) (by decide)).1

end SevenDB.Emission
