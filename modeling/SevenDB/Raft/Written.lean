import SevenDB.Raft.Persistence
import Mathlib.Data.List.Induction
import Mathlib.Order.Nat

/-!
# What a sequence of batches has written

The entry file holds the entries of all batches in the order in which they were written, and the
snapshot file the last snapshot. The log in memory is related to the entries written since that
snapshot: it is their last part, once this part has consecutive indices from the snapshot on.
-/

namespace SevenDB.Raft

open SevenDB.Common

/-- The last snapshot of a sequence of batches, and the entries written before and since. -/
structure Written where
  snapshot : Snapshot
  before : List Entry
  since : List Entry
  deriving DecidableEq, Repr

def Written.nothing : Written := ⟨⟨0, 0⟩, [], []⟩

/-- The entries in the order in which they were written. -/
def Written.all (w : Written) : List Entry := w.before ++ w.since

def Written.add (w : Written) (rd : Ready) : Written :=
  if rd.snapshot.index = 0 then { w with since := w.since ++ rd.entries }
  else ⟨rd.snapshot, w.before ++ w.since, rd.entries⟩

/-- What some batches write. -/
def written (batches : List Ready) : Written := batches.foldl Written.add .nothing

/-- Persist batches one after another, with no failing operation, in an empty directory. -/
def persistAll (codec : LineCodec Entry) (batches : List Ready) : Files :=
  batches.foldl (fun files rd => (files.persist codec .clear rd).1) .empty

/-- Accept batches one after another in a new storage. -/
def acceptAll (lib : RaftStorage) (batches : List Ready) : Option lib.State := batches.foldlM lib.accept lib.new

theorem Written.all_add (w : Written) (rd : Ready) : (w.add rd).all = w.all ++ rd.entries := by
  unfold add all
  split
  · exact (List.append_assoc _ _ _).symm
  · rfl

/-- The files hold what was written. -/
structure Files.Holds (codec : LineCodec Entry) (files : Files) (w : Written) : Prop where
  snapshot : files.snapshot = none ∧ w.snapshot = ⟨0, 0⟩ ∨
    files.snapshot = some w.snapshot ∧ w.snapshot.index ≠ 0
  endsLine : EndsLine files.text
  entries : codec.read files.text = w.all

/-- Persisting without failures adds the entries to the text and replaces the snapshot. -/
theorem Files.persist_clear (codec : LineCodec Entry) (files : Files) (rd : Ready) :
    (files.persist codec .clear rd).1.text = files.text ++ codec.write rd.entries ∧
      (files.persist codec .clear rd).1.snapshot =
        if rd.snapshot.index = 0 then files.snapshot else some rd.snapshot := by
  have hwrite (start : Files) :
      (start.writeState codec .clear rd).1.text = start.text ++ codec.write rd.entries ∧
        (start.writeState codec .clear rd).1.snapshot = start.snapshot := by
    have hhard : (start.writeHardState .clear rd.hardState).text = start.text ∧
        (start.writeHardState .clear rd.hardState).snapshot = start.snapshot := by
      unfold writeHardState
      split <;> exact ⟨rfl, rfl⟩
    unfold writeState writeEntries
    split
    · next hnil =>
      rw [hnil]
      exact ⟨hhard.1.trans (List.append_nil _).symm, hhard.2⟩
    · exact ⟨congrArg (· ++ codec.write rd.entries) hhard.1, hhard.2⟩
  unfold persist
  split
  · exact hwrite files
  · exact hwrite { files with snapshot := some rd.snapshot }

variable {lib : RaftStorage} {w : Written} {s t : lib.State}

theorem Files.Holds.add {codec : LineCodec Entry} {files : Files} (h : files.Holds codec w) (rd : Ready) :
    (files.persist codec .clear rd).1.Holds codec (w.add rd) := by
  obtain ⟨htext, hsnapshot⟩ := files.persist_clear codec rd
  refine ⟨?_, ?_, ?_⟩
  · rw [hsnapshot, Written.add]
    split
    · exact h.snapshot
    · next hindex => exact Or.inr ⟨rfl, hindex⟩
  · rw [htext]
    exact h.endsLine.append (endsLine_endEach _)
  · rw [htext, codec.read_append h.endsLine, codec.read_write, h.entries, Written.all_add]

theorem persistAll_holds (codec : LineCodec Entry) (batches : List Ready) :
    (persistAll codec batches).Holds codec (written batches) := by
  induction batches using List.reverseRecOn with
  | nil => exact ⟨Or.inl ⟨rfl, rfl⟩, Or.inl rfl, rfl⟩
  | append_singleton batches rd ih =>
    rw [persistAll, written, List.foldl_append, List.foldl_append]
    exact ih.add rd

/-- What the log in memory has to do with what was written: it is in order, made of entries written
since the last snapshot, and equal to their last part when that part is in order. -/
structure Written.Tracks (w : Written) (s : lib.State) : Prop where
  covered : lib.covered s = w.snapshot
  ordered : RaftStorage.Ordered s
  length_le : (lib.entries s).length ≤ w.since.length
  mem : ∀ e ∈ lib.entries s, e ∈ w.since
  tail : ∀ k, w.since.drop k ≠ [] → ConsecutiveFrom (lib.firstIndex s) (w.since.drop k) →
    lib.entries s = w.since.drop k

/-- A storage with an empty log is related to nothing written since its snapshot. -/
theorem Written.tracks_empty (hcovered : lib.covered s = w.snapshot) (hentries : lib.entries s = [])
    (hsince : w.since = []) : w.Tracks s := by
  refine ⟨hcovered, ?_, ?_, fun e he => ?_, fun k hk => ?_⟩
  · rw [RaftStorage.Ordered, hentries]
    trivial
  · rw [hentries]
    exact Nat.zero_le _
  · rw [hentries] at he
    cases he
  · rw [hsince] at hk
    exact absurd List.drop_nil hk

/-- Appending the entries of a batch goes on with the last part of what was written. -/
theorem append_tail {since entries : List Entry} (h : ConsecutiveFrom (startIndex entries) entries)
    (happend : lib.append s entries = some t)
    (htail : ∀ k, since.drop k ≠ [] → ConsecutiveFrom (lib.firstIndex s) (since.drop k) → lib.entries s = since.drop k)
    {k : ℕ} (hrest : (since ++ entries).drop k ≠ [])
    (hconsecutive : ConsecutiveFrom (lib.firstIndex s) ((since ++ entries).drop k)) :
    lib.entries t = (since ++ entries).drop k := by
  have hcases := (RaftStorage.append_consecutive h happend).2
  rw [List.drop_append] at hrest hconsecutive ⊢
  rw [consecutiveFrom_append] at hconsecutive
  obtain ⟨hold, hnew⟩ := hconsecutive
  have hstart (hdrop : entries.drop (k - since.length) ≠ []) : k - since.length < entries.length ∧
      startIndex entries + (k - since.length) = lib.firstIndex s + (since.drop k).length := by
    have hlt : k - since.length < entries.length := by
      rw [Ne, List.drop_eq_nil_iff] at hdrop
      omega
    refine ⟨hlt, ?_⟩
    rw [← (h.drop _ (Nat.le_of_lt hlt)).startIndex_eq hdrop, hnew.startIndex_eq hdrop]
  by_cases hbefore : since.drop k = []
  · rw [hbefore, List.nil_append] at hrest ⊢
    obtain ⟨hlt, hindex⟩ := hstart hrest
    rw [hbefore, List.length_nil, Nat.add_zero] at hindex
    rcases hcases with ⟨hshort, _⟩ | ⟨_, _, hentries⟩
    · omega
    · have htake : startIndex entries - lib.firstIndex s = 0 := by omega
      have hskip : lib.firstIndex s - startIndex entries = k - since.length := by omega
      rw [hentries, htake, hskip, List.take_zero, List.nil_append]
  · have hzero : k - since.length = 0 := by
      rw [List.drop_eq_nil_iff] at hbefore
      omega
    rw [hzero, List.drop_zero] at hstart ⊢
    have hlog := htail k hbefore hold
    rw [← hlog] at hstart ⊢
    by_cases hne : entries = []
    · rw [hne, List.append_nil]
      rcases hcases with ⟨_, hsame⟩ | ⟨hlong, _⟩
      · exact hsame
      · rw [hne] at hlong
        exact absurd hlong (Nat.not_lt_zero _)
    · obtain ⟨hlt, hindex⟩ := hstart hne
      rcases hcases with ⟨hshort, _⟩ | ⟨_, _, hentries⟩
      · omega
      · have htake : startIndex entries - lib.firstIndex s = (lib.entries s).length := by omega
        have hskip : lib.firstIndex s - startIndex entries = 0 := by omega
        rw [hentries, htake, hskip, List.take_length, List.drop_zero]

/-- Appending the entries of a batch keeps the log related to what was written. -/
theorem Written.Tracks.append (h : w.Tracks s) {entries : List Entry}
    (hentries : ConsecutiveFrom (startIndex entries) entries) (happend : lib.append s entries = some t) :
    { w with since := w.since ++ entries }.Tracks t := by
  obtain ⟨hcovered, hcases⟩ := RaftStorage.append_consecutive hentries happend
  refine ⟨hcovered.trans h.covered, h.ordered.append hentries happend, ?_, fun e he => ?_, ?_⟩
  · rw [List.length_append]
    rcases hcases with ⟨_, hlog⟩ | ⟨_, _, hlog⟩
    · rw [hlog]
      exact h.length_le.trans (Nat.le_add_right _ _)
    · rw [hlog, List.length_append, List.length_take, List.length_drop]
      exact Nat.add_le_add ((Nat.min_le_right _ _).trans h.length_le) (Nat.sub_le _ _)
  · rcases hcases with ⟨_, hlog⟩ | ⟨_, _, hlog⟩
    · exact List.mem_append_left _ (h.mem e (hlog ▸ he))
    · rcases List.mem_append.mp (hlog ▸ he) with hold | hnew
      · exact List.mem_append_left _ (h.mem e (List.mem_of_mem_take hold))
      · exact List.mem_append_right _ (List.mem_of_mem_drop hnew)
  · rw [RaftStorage.firstIndex, hcovered]
    exact fun k => append_tail hentries happend h.tail (k := k)

theorem Written.Tracks.accept (h : w.Tracks s) {rd : Ready} (haccept : lib.accept s rd = some t) :
    (w.add rd).Tracks t := by
  rw [RaftStorage.accept] at haccept
  rw [Written.add]
  split
  · next hindex =>
    rw [if_pos hindex] at haccept
    exact h.append rd.consecutive haccept
  · next hindex =>
    rw [if_neg hindex] at haccept
    obtain ⟨u, hu, happend⟩ := Option.bind_eq_some_iff.mp haccept
    obtain ⟨hcovered, hempty⟩ := lib.applySnapshot_resets hu
    have hreset : Written.Tracks ⟨rd.snapshot, w.before ++ w.since, []⟩ u :=
      Written.tracks_empty hcovered hempty rfl
    exact hreset.append rd.consecutive happend

/-- The log in memory is related to what the accepted batches have written. -/
theorem acceptAll_tracks {batches : List Ready} (h : acceptAll lib batches = some s) :
    (written batches).Tracks s := by
  induction batches using List.reverseRecOn generalizing s with
  | nil =>
    cases h
    exact Written.tracks_empty lib.covered_new lib.entries_new rfl
  | append_singleton batches rd ih =>
    rw [acceptAll, List.foldlM_append] at h
    obtain ⟨u, hu, haccept⟩ := Option.bind_eq_some_iff.mp h
    rw [written, List.foldl_append]
    obtain ⟨t, ht, hpure⟩ := Option.bind_eq_some_iff.mp haccept
    cases hpure
    exact (ih hu).accept ht

end SevenDB.Raft
