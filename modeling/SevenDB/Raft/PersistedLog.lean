import SevenDB.Raft.Written

/-!
# Rebuilding the log that was persisted

Loading hands all entries of the file to the storage at once. The log of the storage is empty at
that time, so it passes over as many of them as there are indices from that of the first entry up
to the snapshot's, and takes the rest as it is; an entry with the index of the snapshot takes the
place of the covered position. The log in memory is rebuilt exactly when the entries that loading
does not pass over are the ones of the log. A batch that overwrites entries, or a snapshot that
skips some, leaves a file that is loaded as another log.
-/

namespace SevenDB.Raft

open SevenDB.Common

variable {lib : RaftStorage}

/-- The number of indices from that of the first written entry up to the snapshot's. -/
def Written.span (w : Written) : ℕ := w.snapshot.index + 1 - startIndex w.all

theorem highestIndex_le_iff {start n : ℕ} {entries : List Entry} :
    highestIndex start entries ≤ n ↔ start ≤ n ∧ ∀ e ∈ entries, e.index ≤ n := by
  induction entries generalizing start with
  | nil => simp [highestIndex]
  | cons e rest ih =>
    change highestIndex (if start < e.index then e.index else start) rest ≤ n ↔ _
    rw [ih, List.forall_mem_cons, ← and_assoc]
    refine and_congr_left fun _ => ?_
    split <;> omega

theorem RaftStorage.append_to_empty_iff {s : lib.State} (hs : lib.entries s = []) (entries log : List Entry) :
    (∃ t, lib.append s entries = some t ∧ lib.entries t = log) ↔
      entries.length ≤ lib.firstIndex s - startIndex entries ∧ log = [] ∨
        ∃ e, entries[lib.firstIndex s - startIndex entries]? = some e ∧
          (e.index = (lib.covered s).index ∧ log = entries.drop (lib.firstIndex s - startIndex entries + 1) ∨
            e.index = (lib.covered s).index + 1 ∧ log = entries.drop (lib.firstIndex s - startIndex entries)) := by
  have hlog : (∃ t, lib.append s entries = some t ∧ lib.entries t = log) ↔
      ∃ covered, placed (lib.covered s) [] (entries.drop (lib.firstIndex s - startIndex entries)) =
        some (covered, log) := by
    have hplaces := lib.append_places s entries
    rw [hs] at hplaces
    rw [firstIndex, ← hplaces]
    simp
  rw [hlog]
  by_cases hshort : entries.length ≤ lib.firstIndex s - startIndex entries
  · simp [hshort, List.drop_eq_nil_of_le hshort, placed, eq_comm]
  · have hlt : lib.firstIndex s - startIndex entries < entries.length := by omega
    rw [List.drop_eq_getElem_cons hlt, List.getElem?_eq_getElem hlt]
    generalize entries[lib.firstIndex s - startIndex entries] = e
    simp only [placed, hshort, false_and, false_or, Option.some.injEq, exists_eq_left', List.length_nil, Nat.add_zero,
      List.take_nil, List.nil_append]
    split_ifs with hgap hindex
    · have hbelow : e.index ≠ (lib.covered s).index := by omega
      have habove : e.index ≠ (lib.covered s).index + 1 := by omega
      simp [hbelow, habove]
    · simp [hindex, eq_comm]
    · have hnext : e.index = (lib.covered s).index + 1 := by omega
      simp [hnext, eq_comm]

section

variable {codec : LineCodec Entry} {files : Files} {w : Written} (h : files.Holds codec w)
include h

/-- Before the entries are loaded, the storage has an empty log after the snapshot. -/
theorem Files.Holds.loadSnapshot {result : LoadResult lib}
    (hresult : files.loadHardState (files.loadSnapshot lib.new) = result) :
    lib.covered result.storage = w.snapshot ∧ lib.entries result.storage = [] ∧
      result.lastEntryIdx = w.snapshot.index := by
  have hhard (start : LoadResult lib) :
      lib.covered (files.loadHardState start).storage = lib.covered start.storage ∧
        lib.entries (files.loadHardState start).storage = lib.entries start.storage ∧
        (files.loadHardState start).lastEntryIdx = start.lastEntryIdx := by
    unfold loadHardState
    split
    · exact ⟨rfl, rfl, rfl⟩
    · split
      · exact ⟨rfl, rfl, rfl⟩
      · exact ⟨lib.covered_setHardState _ _, lib.entries_setHardState _ _, rfl⟩
  subst hresult
  obtain ⟨hcovered, hentries, hlast⟩ := hhard (files.loadSnapshot lib.new)
  rw [hcovered, hentries, hlast, Files.loadSnapshot]
  rcases h.snapshot with ⟨hnone, hzero⟩ | ⟨hsome, hindex⟩
  · rw [hnone, hzero]
    exact ⟨lib.covered_new, lib.entries_new, rfl⟩
  · obtain ⟨t, ht⟩ := Option.isSome_iff_exists.mp (lib.applySnapshot_new w.snapshot hindex)
    obtain ⟨hreset, hempty⟩ := lib.applySnapshot_resets ht
    rw [hsome]
    dsimp only
    rw [if_neg hindex, ht]
    exact ⟨hreset, hempty, rfl⟩

theorem Files.Holds.load_iff {log : List Entry} {last : ℕ} :
    (∃ result, files.load codec lib.new = some result ∧ lib.entries result.storage = log ∧
        result.lastEntryIdx = last) ↔
      highestIndex w.snapshot.index w.all = last ∧
        (w.all.length ≤ w.span ∧ log = [] ∨
          ∃ e, w.all[w.span]? = some e ∧
            (e.index = w.snapshot.index ∧ log = w.all.drop (w.span + 1) ∨
              e.index = w.snapshot.index + 1 ∧ log = w.all.drop w.span)) := by
  unfold load
  generalize hstart : files.loadHardState (files.loadSnapshot lib.new) = start
  obtain ⟨hcovered, hempty, hlast⟩ := h.loadSnapshot hstart
  rw [loadEntries, h.entries]
  by_cases hne : w.all = []
  · rw [if_pos hne, hne]
    constructor
    · rintro ⟨result, hresult, rfl, rfl⟩
      cases hresult
      exact ⟨hlast.symm, Or.inl ⟨Nat.zero_le _, hempty⟩⟩
    · rintro ⟨rfl, ⟨_, rfl⟩ | ⟨e, he, _⟩⟩
      · exact ⟨start, rfl, hempty, hlast⟩
      · cases he
  · have happend := RaftStorage.append_to_empty_iff hempty w.all log
    have hspan : lib.firstIndex start.storage - startIndex w.all = w.span := by
      rw [RaftStorage.firstIndex, hcovered]
      rfl
    rw [hspan, hcovered] at happend
    rw [if_neg hne, ← happend, hlast]
    constructor
    · rintro ⟨result, hresult, rfl, rfl⟩
      obtain ⟨t, ht, rfl⟩ := Option.map_eq_some_iff.mp hresult
      exact ⟨rfl, t, ht, rfl⟩
    · rintro ⟨rfl, t, ht, rfl⟩
      exact ⟨_, Option.map_eq_some_iff.mpr ⟨t, ht, rfl⟩, rfl, rfl⟩

end

/-- What was written lines up with the log when its first entries are passed over: they are as many
as the span, and one more when the next one has the index of the snapshot; all that were written
before the snapshot are among them; the others have consecutive indices from the snapshot on; and no
index that was written is above theirs. -/
structure Written.LinedUp (w : Written) (passed : ℕ) : Prop where
  passes : passed = w.span ∨
    passed = w.span + 1 ∧ ∃ e, w.all[w.span]? = some e ∧ e.index = w.snapshot.index
  before : w.before.length ≤ passed
  consecutive : ConsecutiveFrom (w.snapshot.index + 1) (w.all.drop passed)
  highest : ∀ e ∈ w.all, e.index ≤ w.snapshot.index + (w.all.drop passed).length

variable {w : Written} {s : lib.State} {passed : ℕ}

/-- When what was written lines up, the log in memory is what is left of it. -/
theorem Written.Tracks.entries_eq (h : w.Tracks s) (hlined : w.LinedUp passed) :
    lib.entries s = w.all.drop passed := by
  have hfirst : lib.firstIndex s = w.snapshot.index + 1 := by rw [RaftStorage.firstIndex, h.covered]
  have hsince : w.all.drop passed = w.since.drop (passed - w.before.length) := by
    rw [all, List.drop_append, List.drop_eq_nil_of_le hlined.before, List.nil_append]
  by_cases hleft : w.all.drop passed = []
  · rw [hleft, List.eq_nil_iff_forall_not_mem]
    intro e he
    have hlow := (h.ordered.index_bounds he).1
    have hhigh := hlined.highest e (List.mem_append_right _ (h.mem e he))
    rw [hleft, List.length_nil] at hhigh
    omega
  · have hconsecutive := hlined.consecutive
    rw [hsince] at hleft hconsecutive ⊢
    rw [← hfirst] at hconsecutive
    exact h.tail _ hleft hconsecutive

/-- What was written lines up when its last part is the log and no other index is above it. -/
theorem Written.Tracks.linedUp (h : w.Tracks s)
    (hpasses : passed = w.span ∨ passed = w.span + 1 ∧ ∃ e, w.all[w.span]? = some e ∧ e.index = w.snapshot.index)
    (hle : passed ≤ w.all.length) (hentries : lib.entries s = w.all.drop passed)
    (hhighest : highestIndex w.snapshot.index w.all = lib.lastIndex s) : w.LinedUp passed := by
  refine ⟨hpasses, ?_, ?_, fun e he => ?_⟩
  · have hlength := h.length_le
    rw [hentries, List.length_drop] at hlength
    rw [all, List.length_append] at hlength hle
    omega
  · have hordered := h.ordered
    rw [RaftStorage.Ordered, RaftStorage.firstIndex, h.covered, hentries] at hordered
    exact hordered
  · have hbound := (highestIndex_le_iff.mp hhighest.le).2 e he
    rw [RaftStorage.lastIndex, h.covered, hentries] at hbound
    exact hbound

theorem Written.Tracks.highestIndex_eq (h : w.Tracks s) (hlined : w.LinedUp passed) :
    highestIndex w.snapshot.index w.all = lib.lastIndex s := by
  have hentries := h.entries_eq hlined
  have hlast : lib.lastIndex s = w.snapshot.index + (w.all.drop passed).length := by
    rw [RaftStorage.lastIndex, h.covered, hentries]
  rw [hlast]
  refine le_antisymm (highestIndex_le_iff.mpr ⟨Nat.le_add_right _ _, hlined.highest⟩) ?_
  obtain ⟨hstart, hall⟩ := highestIndex_le_iff.mp (le_refl (highestIndex w.snapshot.index w.all))
  by_cases hleft : w.all.drop passed = []
  · rw [hleft]
    exact hstart
  · obtain ⟨e, he, hindex⟩ := hlined.consecutive.exists_last hleft
    have hle := hall e (List.mem_of_mem_drop he)
    omega

/-- Loading the persisted files rebuilds the log in memory, and reports its last index, exactly when
what the accepted batches have written lines up with the log, whatever storage meets the laws. -/
theorem load_rebuilds_log_iff (lib : RaftStorage) (codec : LineCodec Entry) {batches : List Ready}
    {s : lib.State} (haccepted : acceptAll lib batches = some s) :
    (∃ result, (persistAll codec batches).load codec lib.new = some result ∧
        lib.entries result.storage = lib.entries s ∧ result.lastEntryIdx = lib.lastIndex s) ↔
      ∃ passed, (written batches).LinedUp passed := by
  have htracks := acceptAll_tracks haccepted
  rw [(persistAll_holds codec batches).load_iff]
  generalize written batches = w at htracks ⊢
  constructor
  · rintro ⟨hhighest, ⟨hshort, hlog⟩ | ⟨e, he, ⟨hindex, hlog⟩ | ⟨_, hlog⟩⟩⟩
    · refine ⟨w.span, Or.inl rfl, ?_, ?_, ?_⟩
      · exact le_trans (by rw [Written.all, List.length_append]; exact Nat.le_add_right _ _) hshort
      · rw [List.drop_eq_nil_of_le hshort]
        trivial
      · rw [RaftStorage.lastIndex, hlog, htracks.covered] at hhighest
        rw [List.drop_eq_nil_of_le hshort]
        exact (highestIndex_le_iff.mp hhighest.le).2
    · have hlt := (List.getElem?_eq_some_iff.mp he).1
      exact ⟨_, htracks.linedUp (Or.inr ⟨rfl, e, he, hindex⟩) hlt hlog hhighest⟩
    · have hlt := (List.getElem?_eq_some_iff.mp he).1
      exact ⟨_, htracks.linedUp (Or.inl rfl) hlt.le hlog hhighest⟩
  · rintro ⟨passed, hlined⟩
    refine ⟨htracks.highestIndex_eq hlined, ?_⟩
    rw [htracks.entries_eq hlined]
    rcases hlined.passes with rfl | ⟨rfl, e, he, hindex⟩
    · by_cases hshort : w.all.length ≤ w.span
      · exact Or.inl ⟨hshort, List.drop_eq_nil_of_le hshort⟩
      · have hlt : w.span < w.all.length := by omega
        have hconsecutive := hlined.consecutive
        rw [List.drop_eq_getElem_cons hlt] at hconsecutive
        exact Or.inr ⟨_, List.getElem?_eq_getElem hlt, Or.inr ⟨hconsecutive.1, rfl⟩⟩
    · exact Or.inr ⟨e, he, Or.inl ⟨hindex, rfl⟩⟩

def noop (index term : ℕ) : Entry := ⟨index, term, .normal, []⟩

/-- Two batches, the second with a snapshot of what the first has written. -/
def snapshotBatches : List Ready :=
  [⟨⟨0, 0⟩, ⟨1, 1, 0⟩, [noop 1 1, noop 2 1], by decide⟩, ⟨⟨2, 1⟩, .empty, [noop 3 1], by decide⟩]

/-- The log after a snapshot is rebuilt when the snapshot covers exactly what was written before. -/
theorem load_rebuilds_log_after_snapshot :
    ∃ s, acceptAll MemoryStorage.lib snapshotBatches = some s ∧ s.entries = [noop 3 1] ∧
      ∃ result, (persistAll (.tally Entry) snapshotBatches).load (.tally Entry) MemoryStorage.lib.new = some result ∧
        result.storage.entries = s.entries ∧ result.lastEntryIdx = MemoryStorage.lib.lastIndex s := by
  have haccepted : acceptAll MemoryStorage.lib snapshotBatches = some ⟨⟨2, 1⟩, [noop 3 1], .empty⟩ := by decide
  have hlined : (written snapshotBatches).LinedUp (written snapshotBatches).span :=
    ⟨Or.inl rfl, by decide, by decide, by decide⟩
  exact ⟨_, haccepted, rfl, (load_rebuilds_log_iff _ (.tally Entry) haccepted).mpr ⟨_, hlined⟩⟩

/-- Two batches, the second of which overwrites entries of the first in a later term. -/
def overwritingBatches : List Ready :=
  [⟨⟨0, 0⟩, ⟨1, 1, 0⟩, [noop 1 1, noop 2 1, noop 3 1], by decide⟩,
    ⟨⟨0, 0⟩, ⟨2, 1, 0⟩, [noop 2 2], by decide⟩]

/-- After an overwriting batch, loading brings the overwritten entries back in front of the new one
and reports their last index. -/
theorem load_restores_overwritten :
    ∃ s result, acceptAll MemoryStorage.lib overwritingBatches = some s ∧
      (persistAll (.tally Entry) overwritingBatches).load (.tally Entry) MemoryStorage.lib.new = some result ∧
      s.entries = [noop 1 1, noop 2 2] ∧
      result.storage.entries = [noop 1 1, noop 2 1, noop 3 1, noop 2 2] ∧
      MemoryStorage.lib.lastIndex s = 2 ∧ result.lastEntryIdx = 3 := by
  have hholds := persistAll_holds (.tally Entry) overwritingBatches
  obtain ⟨result, hload, hentries, hlast⟩ := (@Files.Holds.load_iff MemoryStorage.lib _ _ _ hholds _ _).mpr
    ⟨rfl, Or.inr ⟨noop 1 1, by decide, Or.inr ⟨rfl, rfl⟩⟩⟩
  exact ⟨⟨⟨0, 0⟩, [noop 1 1, noop 2 2], .empty⟩, result, by decide, hload, rfl, hentries, rfl, hlast⟩

end SevenDB.Raft
