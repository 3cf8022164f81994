import SevenDB.Common.FiniteTable
import SevenDB.Emission.Types

/-!
# The in-memory outbox

The outbox is a table from subscriptions to tables from commit indices to entries. Writing
replaces whatever entry had the same commit index, and purging deletes by commit index and
drops a subscription whose last entry goes. Both keep every inner table nonempty and every
entry filed under its own subscription and index, so these facts are part of the type.

Pending entries are listed through a conversion of the indices to signed integers, as in
the source; the list is in increasing index order only while all indices are below `2^63`.
-/

namespace SevenDB.Emission

open SevenDB.Common

/-- No subscription has an empty table, and entries carry the keys they are filed under. -/
def Filed (bySub : Table String (Table UInt64 OutboxEntry)) : Prop :=
  ∀ sub entries, bySub.lookup sub = some entries →
    entries.keys ≠ ∅ ∧ ∀ idx entry, entries.lookup idx = some entry →
      entry.subID = sub ∧ entry.seq.commitIndex = idx

/-- The pending entries of every subscription. -/
structure OutboxState where
  bySub : Table String (Table UInt64 OutboxEntry)
  filed : Filed bySub

/-- A bucket starts with nothing pending. -/
def newOutboxState : OutboxState where
  bySub := ∅
  filed := by
    intro sub entries h
    simp at h

variable {sub : String} {o p : OutboxState}

theorem Filed.insert {bySub : Table String (Table UInt64 OutboxEntry)} (h : Filed bySub)
    {entries : Table UInt64 OutboxEntry} (hne : entries.keys ≠ ∅)
    (hentries : ∀ idx entry, entries.lookup idx = some entry → entry.subID = sub ∧ entry.seq.commitIndex = idx) :
    Filed (bySub.insert sub entries) := by
  intro other table hlookup
  rw [Table.lookup_insert_eq_ite] at hlookup
  split at hlookup
  · next heq =>
    subst heq
    cases hlookup
    exact ⟨hne, hentries⟩
  · exact h other table hlookup

theorem Filed.erase {bySub : Table String (Table UInt64 OutboxEntry)} (h : Filed bySub)
    (sub : String) : Filed (bySub.erase sub) := by
  intro other table hlookup
  rw [Table.lookup_erase_eq_ite] at hlookup
  split at hlookup
  · cases hlookup
  · exact h other table hlookup

/-- The table of a subscription, empty when it has none. -/
def OutboxState.entries (o : OutboxState) (sub : String) : Table UInt64 OutboxEntry :=
  (o.bySub.lookup sub).getD ∅

/-- The entry pending for a subscription at a commit index. -/
def OutboxState.entryAt (o : OutboxState) (sub : String) (idx : UInt64) : Option OutboxEntry :=
  (o.entries sub).lookup idx

theorem OutboxState.entryAt_filed {idx : UInt64} {entry : OutboxEntry} (h : o.entryAt sub idx = some entry) :
    entry.subID = sub ∧ entry.seq.commitIndex = idx := by
  unfold OutboxState.entryAt OutboxState.entries at h
  cases hsub : o.bySub.lookup sub with
  | none => simp [hsub] at h
  | some entries =>
    rw [hsub] at h
    exact (o.filed sub entries hsub).2 idx entry h

/-- Record an entry, reporting whether its subscription had nothing pending. -/
def OutboxState.write (o : OutboxState) (e : OutboxEntry) : OutboxState × Bool :=
  ({ bySub := o.bySub.insert e.subID ((o.entries e.subID).insert e.seq.commitIndex e)
     filed := by
      apply o.filed.insert
      · intro hempty
        have hnone := (Table.keys_eq_empty_iff _).mp hempty e.seq.commitIndex
        simp at hnone
      · intro idx entry hlookup
        rw [Table.lookup_insert_eq_ite] at hlookup
        split at hlookup
        · next heq =>
          cases hlookup
          exact ⟨rfl, heq.symm⟩
        · exact OutboxState.entryAt_filed hlookup },
    decide (e.subID ∉ o.bySub))

/-- Remove the entries of a subscription up to and including the commit index. The results
are the number removed and whether the subscription was dropped. -/
def OutboxState.purge (o : OutboxState) (sub : String) (upTo : UInt64) : OutboxState × ℕ × Bool :=
  match hsub : o.bySub.lookup sub with
  | none => (o, 0, false)
  | some m =>
    let kept := Table.filterKeys (fun idx => !decide (idx ≤ upTo)) m
    let removed := (m.keys.filter (fun idx => idx ≤ upTo)).card
    if hlen : kept.keys = ∅ then
      ({ bySub := o.bySub.erase sub, filed := o.filed.erase sub }, removed, true)
    else
      ({ bySub := o.bySub.insert sub kept
         filed := by
          refine o.filed.insert hlen ?_
          intro idx entry hlookup
          rw [Table.lookup_filterKeys] at hlookup
          split at hlookup
          · exact (o.filed sub m hsub).2 idx entry hlookup
          · cases hlookup },
        removed, false)

/-- The pending entries of a subscription, ordered by the signed reading of their indices. -/
def OutboxState.pendingSorted (o : OutboxState) (sub : String) : List OutboxEntry :=
  match o.bySub.lookup sub with
  | none => []
  | some m =>
    let idxs := sortedList (fun i j : Int64 => i ≤ j) (m.keys.val.map UInt64.toInt64)
    idxs.filterMap fun i => m.lookup i.toUInt64

namespace OutboxState

/-- Outboxes with the same entries at every index of a subscription hold the same table for it. -/
theorem lookup_eq_of_entryAt (h : ∀ idx, o.entryAt sub idx = p.entryAt sub idx) :
    o.bySub.lookup sub = p.bySub.lookup sub := by
  have hsub : o.entries sub = p.entries sub := Finmap.ext_lookup h
  unfold entries at hsub
  cases ho : o.bySub.lookup sub with
  | none =>
    cases hp : p.bySub.lookup sub with
    | none => rfl
    | some m =>
      rw [ho, hp] at hsub
      simp only [Option.getD_none, Option.getD_some] at hsub
      exact absurd (hsub ▸ Finmap.keys_empty) (p.filed sub m hp).1
  | some m =>
    cases hp : p.bySub.lookup sub with
    | none =>
      rw [ho, hp] at hsub
      simp only [Option.getD_none, Option.getD_some] at hsub
      exact absurd (hsub ▸ Finmap.keys_empty) (o.filed sub m ho).1
    | some m' =>
      rw [ho, hp] at hsub
      simpa using hsub

/-- Two outboxes with the same entries at every subscription and index are equal. -/
theorem ext_entryAt (h : ∀ sub idx, o.entryAt sub idx = p.entryAt sub idx) : o = p := by
  have hlookup (sub : String) : o.bySub.lookup sub = p.bySub.lookup sub :=
    lookup_eq_of_entryAt (h sub)
  cases o
  cases p
  congr
  exact Finmap.ext_lookup hlookup

theorem pendingSorted_congr (h : ∀ idx, o.entryAt sub idx = p.entryAt sub idx) :
    o.pendingSorted sub = p.pendingSorted sub := by
  unfold pendingSorted
  rw [lookup_eq_of_entryAt h]

/-- A write changes exactly the entry at its own subscription and commit index. -/
theorem entryAt_write (o : OutboxState) (e : OutboxEntry) (sub : String) (idx : UInt64) :
    (o.write e).1.entryAt sub idx =
      if sub = e.subID ∧ idx = e.seq.commitIndex then some e else o.entryAt sub idx := by
  unfold entryAt entries write
  simp only [Table.lookup_insert_eq_ite]
  by_cases hsub : sub = e.subID
  · subst hsub
    by_cases hidx : idx = e.seq.commitIndex
    · subst hidx
      simp
    · simp [hidx, entries]
  · simp [hsub]

section

variable (o : OutboxState) (sub : String) (upTo : UInt64) (other : String)

/-- A purge keeps the entries of its subscription above the index, and all of the others. -/
theorem entries_purge :
    (o.purge sub upTo).1.entries other =
      if other = sub then Table.filterKeys (fun idx => !decide (idx ≤ upTo)) (o.entries sub)
      else o.entries other := by
  unfold purge
  split
  · next hsub =>
    by_cases hother : other = sub
    · rw [if_pos hother, hother, entries, hsub]
      rfl
    · rw [if_neg hother]
  · next m hsub =>
    have hm : o.entries sub = m := by rw [entries, hsub, Option.getD_some]
    dsimp only
    rw [hm]
    split
    · next hempty =>
      rw [entries, Table.lookup_erase_eq_ite, Table.eq_empty_of_keys _ hempty]
      split <;> rfl
    · rw [entries, Table.lookup_insert_eq_ite]
      split <;> rfl

/-- A purge removes exactly the entries of its subscription at or below the commit index. -/
theorem entryAt_purge (idx : UInt64) :
    (o.purge sub upTo).1.entryAt other idx =
      if other = sub ∧ idx ≤ upTo then none else o.entryAt other idx := by
  rw [entryAt, entries_purge]
  by_cases hother : other = sub
  · rw [if_pos hother, Table.lookup_filterKeys, hother]
    by_cases hidx : idx ≤ upTo
    · rw [if_neg (by simp [hidx]), if_pos ⟨rfl, hidx⟩]
    · rw [if_pos (by simp [hidx]), if_neg fun h => hidx h.2]
      rfl
  · rw [if_neg hother, if_neg fun h => hother h.1]
    rfl

end

end OutboxState

/-- Below `2^63` the signed reading keeps the order of the indices. -/
theorem toInt64_le_iff {first second : UInt64} (hfirst : first.toNat < 2 ^ 63)
    (hsecond : second.toNat < 2 ^ 63) :
    first.toInt64 ≤ second.toInt64 ↔ first.toNat ≤ second.toNat := by
  have hread (idx : UInt64) (hidx : idx.toNat < 2 ^ 63) : idx.toInt64.toInt = idx.toNat := by
    change idx.toBitVec.toInt = _
    rw [BitVec.toInt_eq_toNat_of_lt]
    · rfl
    · change 2 * idx.toNat < 2 ^ 64
      omega
  rw [Int64.le_iff_toInt_le, hread first hfirst, hread second hsecond]
  exact Int.ofNat_le

section

variable (o : OutboxState) (sub : String)

namespace OutboxState

theorem mem_pendingSorted (entry : OutboxEntry) :
    entry ∈ o.pendingSorted sub ↔ o.entryAt sub entry.seq.commitIndex = some entry := by
  unfold pendingSorted
  split
  · next hsub => simp [entryAt, entries, hsub]
  · next m hsub =>
    have hm : ∀ idx, o.entryAt sub idx = m.lookup idx := by
      intro idx
      simp [entryAt, entries, hsub]
    simp only [List.mem_filterMap, mem_sortedList, Multiset.mem_map]
    constructor
    · rintro ⟨i, ⟨idx, _, rfl⟩, hlookup⟩
      rw [UInt64.toUInt64_toInt64] at hlookup
      rw [hm, ((o.filed sub m hsub).2 idx entry hlookup).2]
      exact hlookup
    · intro h
      rw [hm] at h
      refine ⟨entry.seq.commitIndex.toInt64, ⟨entry.seq.commitIndex, ?_, rfl⟩, ?_⟩
      · exact Finmap.mem_keys.mpr (Finmap.mem_of_lookup_eq_some h)
      · rw [UInt64.toUInt64_toInt64]
        exact h

theorem length_pendingSorted :
    (o.pendingSorted sub).length = (o.entries sub).keys.card := by
  unfold pendingSorted entries
  split
  · next hsub => simp [hsub]
  · next m hsub =>
    rw [hsub, Option.getD_some, List.length_filterMap_eq_countP, List.countP_eq_length.mpr]
    · rw [length_sortedList, Multiset.card_map]
      rfl
    · intro i hi
      rw [mem_sortedList, Multiset.mem_map] at hi
      obtain ⟨idx, hidx, rfl⟩ := hi
      rw [UInt64.toUInt64_toInt64]
      exact Finmap.lookup_isSome.mpr (Finmap.mem_keys.mp hidx)

/-- The pending list is strictly increasing in the signed reading of the indices. -/
theorem pendingSorted_signed :
    (o.pendingSorted sub).Pairwise fun first second =>
      first.seq.commitIndex.toInt64 ≤ second.seq.commitIndex.toInt64 ∧
        first.seq.commitIndex ≠ second.seq.commitIndex := by
  unfold pendingSorted
  split
  · exact List.Pairwise.nil
  · next m hsub =>
    have hnodup : (m.keys.val.map UInt64.toInt64).Nodup := by
      refine m.keys.nodup.map fun first second h => ?_
      rw [← UInt64.toUInt64_toInt64 first, h, UInt64.toUInt64_toInt64]
    have hpair := (sortedList_pairwise (fun i j : Int64 => i ≤ j)
      (m.keys.val.map UInt64.toInt64)).and (sortedList_nodup (fun i j : Int64 => i ≤ j) hnodup)
    refine List.Pairwise.filterMap _ ?_ hpair
    rintro i j ⟨hle, hne⟩ first hfirst second hsecond
    have hi := ((o.filed sub m hsub).2 _ _ hfirst).2
    have hj := ((o.filed sub m hsub).2 _ _ hsecond).2
    rw [hi, hj]
    exact ⟨hle, fun h => hne (by rw [← Int64.toInt64_toUInt64 i, h, Int64.toInt64_toUInt64])⟩

/-- While the pending indices are below `2^63`, the pending list is strictly increasing. -/
theorem pendingSorted_increasing
    (hbound : ∀ idx entry, o.entryAt sub idx = some entry → entry.index < 2 ^ 63) :
    (o.pendingSorted sub).Pairwise fun first second => first.index < second.index := by
  refine List.Pairwise.imp_of_mem ?_ (o.pendingSorted_signed sub)
  rintro first second hfirst hsecond ⟨hle, hne⟩
  have hf := hbound _ _ ((o.mem_pendingSorted sub first).mp hfirst)
  have hs := hbound _ _ ((o.mem_pendingSorted sub second).mp hsecond)
  have hnat := (toInt64_le_iff hf hs).mp hle
  exact lt_of_le_of_ne hnat fun h => hne (UInt64.toNat_inj.mp h)

end OutboxState

end

end SevenDB.Emission
