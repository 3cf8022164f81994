import SevenDB.Bucket.FileBucketLog

/-!
# The entries in the file of a bucket

A file divides into a front of whole frames with matching checksums and a rest that does not begin with
such a frame. Reads and the scan at opening come to the entries of the front and stop there. An append to a
file without a rest adds its entry at the end. Behind a rest nothing is read.
-/

namespace SevenDB.Bucket

open SevenDB.Common

variable {B : Type*} (fmt : BucketFormat B)

/-- A file is a front of whole frames with matching checksums, none of them empty, and a rest that does not
begin with a frame whose checksum matches. -/
structure Divides (bytes front rest : List UInt8) : Prop where
  eq_append : bytes = front ++ rest
  clean : (sizeFirst.scan front).2 = .clean
  valid : ∀ f ∈ (sizeFirst.scan front).1, f.payload ≠ [] ∧ fmt.matches f = true
  rejected : validFrames fmt rest = []

/-- The bytes of a file behind the frames that a read comes to. -/
def unread (bytes : List UInt8) : List UInt8 := bytes.drop ((validFrames fmt bytes).map RawFrame.length).sum

/-- Entries are numbered from one on. -/
def Numbered (entries : List (WALEntry B)) : Prop :=
  entries.map (·.commitIndex) = List.range' 1 entries.length

instance (entries : List (WALEntry B)) : Decidable (Numbered entries) :=
  inferInstanceAs (Decidable (_ = _))

theorem foldl_commitIndex {entries : List (WALEntry B)} {last : ℕ}
    (h : entries.map (·.commitIndex) = List.range' (last + 1) entries.length) :
    entries.foldl (fun last e => if last < e.commitIndex then e.commitIndex else last) last =
      last + entries.length := by
  induction entries generalizing last with
  | nil => rfl
  | cons e others ih =>
    rw [List.map_cons, List.length_cons, List.range'_succ] at h
    obtain ⟨hfirst, hothers⟩ := List.cons.inj h
    rw [List.foldl_cons, hfirst, if_pos (Nat.lt_succ_self last), ih hothers, List.length_cons]
    omega

theorem Numbered.append {entries more : List (WALEntry B)} (h : Numbered entries)
    (hmore : more.map (·.commitIndex) = List.range' (entries.length + 1) more.length) :
    Numbered (entries ++ more) := by
  rw [Numbered, List.map_append, h, hmore, List.length_append, Nat.add_comm entries.length 1,
    List.range'_append_1]

theorem Numbered.of_isPrefix {entries first : List (WALEntry B)} (h : Numbered entries) (hfirst : first <+: entries) :
    Numbered first := by
  obtain ⟨more, rfl⟩ := hfirst
  rw [Numbered, List.map_append, List.length_append, ← List.range'_append_1] at h
  exact List.append_inj_left h (by rw [List.length_map, List.length_range'])

section Rejected

variable {fmt} {bytes : List UInt8}

theorem validFrames_eq_nil (h : (sizeFirst.scan bytes).1 = []) : validFrames fmt bytes = [] := by
  rw [validFrames, h, List.takeWhile_nil]

/-- Bytes are rejected when they are rejected with more bytes after them. -/
theorem validFrames_of_append (more : List UInt8) (h : validFrames fmt (bytes ++ more) = []) :
    validFrames fmt bytes = [] := by
  cases hscan : (sizeFirst.scan bytes).1 with
  | nil => exact validFrames_eq_nil hscan
  | cons f rest =>
    obtain ⟨others, hmore⟩ := FrameLayout.scan_cons_append hscan more
    rw [validFrames, hmore, List.takeWhile_cons] at h
    rw [validFrames, hscan, List.takeWhile_cons]
    by_cases hmatches : fmt.matches f = true
    · rw [if_pos hmatches] at h
      cases h
    · rw [if_neg hmatches]

end Rejected

namespace Divides

variable {fmt} {bytes front rest : List UInt8}

theorem nil : Divides fmt [] [] [] := ⟨rfl, rfl, fun _ hf => absurd hf List.not_mem_nil, rfl⟩

section

variable (h : Divides fmt bytes front rest)
include h

theorem validFrames_eq : validFrames fmt bytes = (sizeFirst.scan front).1 := by
  have hrest := h.rejected
  rw [validFrames] at hrest
  rw [h.eq_append, validFrames, FrameLayout.scan_append h.clean,
    List.takeWhile_append_of_pos fun f hf => (h.valid f hf).2, hrest, List.append_nil]

theorem readable_eq :
    readable fmt bytes = (sizeFirst.scan front).1.filterMap fmt.entryIn := by
  rw [readable, h.validFrames_eq]

theorem unread_eq : unread fmt bytes = rest := by
  rw [unread, h.validFrames_eq, FrameLayout.sum_length_scan h.clean, h.eq_append, List.drop_left]

/-- The scan at opening finds the number of entries that are numbered. -/
theorem lastCommitIndex_eq (hnumbered : Numbered (readable fmt bytes)) :
    lastCommitIndex fmt bytes = (readable fmt bytes).length := by
  have hrest : (sizeFirst.scan rest).1.takeWhile (fun f => f.payload ≠ [] && fmt.matches f) = [] := by
    have hrejected := h.rejected
    rw [validFrames] at hrejected
    cases hscan : (sizeFirst.scan rest).1 with
    | nil => rfl
    | cons f others =>
      rw [hscan, List.takeWhile_cons] at hrejected
      by_cases hmatches : fmt.matches f = true
      · rw [if_pos hmatches] at hrejected
        cases hrejected
      · rw [List.takeWhile_cons, eq_false_of_ne_true hmatches, Bool.and_false]
        rfl
  have hfront : (sizeFirst.scan bytes).1.takeWhile (fun f => f.payload ≠ [] && fmt.matches f) =
      (sizeFirst.scan front).1 := by
    rw [h.eq_append, FrameLayout.scan_append h.clean, List.takeWhile_append_of_pos, hrest, List.append_nil]
    intro f hf
    rw [(h.valid f hf).2, Bool.and_true]
    exact decide_eq_true (h.valid f hf).1
  rw [lastCommitIndex, hfront, ← h.readable_eq, foldl_commitIndex hnumbered, Nat.zero_add]

end

section

variable (h : Divides fmt bytes front []) {more : List UInt8} (hclean : (sizeFirst.scan more).2 = .clean)
  (hvalid : ∀ f ∈ (sizeFirst.scan more).1, f.payload ≠ [] ∧ fmt.matches f = true)
include h hclean hvalid

theorem append :
    Divides fmt (bytes ++ more) (front ++ more) [] := by
  have hscan := FrameLayout.scan_append h.clean more
  refine ⟨by rw [h.eq_append, List.append_nil, List.append_nil], by rw [hscan]; exact hclean, ?_, rfl⟩
  rw [hscan]
  intro f hf
  rcases List.mem_append.mp hf with hfront | hmore
  · exact h.valid f hfront
  · exact hvalid f hmore

theorem readable_append :
    readable fmt (bytes ++ more) = readable fmt bytes ++ (sizeFirst.scan more).1.filterMap fmt.entryIn := by
  rw [(h.append hclean hvalid).readable_eq, FrameLayout.scan_append h.clean, List.filterMap_append, h.readable_eq]

end

theorem of_isPrefix (h : Divides fmt bytes front rest) {kept : List UInt8} (hkept : kept <+: bytes)
    (hfront : front.length ≤ kept.length) : ∃ less, Divides fmt kept front less := by
  have hbegins : front <+: kept :=
    List.prefix_of_prefix_length_le (h.eq_append ▸ List.prefix_append front rest) hkept hfront
  obtain ⟨less, rfl⟩ := hbegins
  obtain ⟨lost, hlost⟩ := hkept
  refine ⟨less, rfl, h.clean, h.valid, validFrames_of_append lost ?_⟩
  rw [h.eq_append, List.append_assoc] at hlost
  rw [List.append_cancel_left hlost]
  exact h.rejected

end Divides

/-- The file of a bucket divides, its entries are numbered and synced, and a bucket that is open without a
rest knows their number. -/
structure BucketState.Sound (s : BucketState) (front rest : List UInt8) : Prop where
  divides : Divides fmt s.file.file front rest
  numbered : Numbered (readable fmt s.file.file)
  counted : rest = [] → ∀ last ∈ s.commitIdx, last = (readable fmt s.file.file).length
  buf_eq : s.file.buf = []
  front_synced : front.length ≤ s.file.synced
  synced_le : s.file.synced ≤ s.file.file.length

namespace BucketState

section Frame

variable {fmt} {s : BucketState} {entry : WALEntry B} {now : ℤ}

theorem stampedJSON_ne_nil : s.stampedJSON fmt entry now ≠ [] := by
  intro hnil
  have hdecode := fmt.json.decode_encode (s.stamp entry now)
  rw [← stampedJSON, hnil, fmt.decode_nil] at hdecode
  cases hdecode

theorem readable_stampedFrame {front : List UInt8} (h : Divides fmt s.file.file front [])
    (hsize : (s.stampedJSON fmt entry now).length < 2 ^ 31) :
    Divides fmt (s.file.file ++ s.stampedFrame fmt entry now) (front ++ s.stampedFrame fmt entry now) [] ∧
      readable fmt (s.file.file ++ s.stampedFrame fmt entry now) =
        readable fmt s.file.file ++ [s.stamp entry now] := by
  have hscan : sizeFirst.scan (s.stampedFrame fmt entry now) = _ :=
    sizeFirst.scan_frame fmt.checksum (hsize.trans (by decide))
  have hclean : (sizeFirst.scan (s.stampedFrame fmt entry now)).2 = .clean := by rw [hscan]
  have hvalid : ∀ f ∈ (sizeFirst.scan (s.stampedFrame fmt entry now)).1,
      f.payload ≠ [] ∧ fmt.matches f = true := by
    rw [hscan]
    intro f hf
    rw [List.mem_singleton.mp hf]
    exact ⟨stampedJSON_ne_nil, decide_eq_true rfl⟩
  refine ⟨h.append hclean hvalid, ?_⟩
  rw [h.readable_append hclean hvalid, hscan]
  exact congrArg (readable fmt s.file.file ++ ·)
    (List.filterMap_cons_some (fmt.json.decode_encode (s.stamp entry now)))

end Frame

namespace Sound

variable {fmt} {s : BucketState} {front rest : List UInt8}

theorem onDisk {bytes : List UInt8} (h : Divides fmt bytes front rest) (hnumbered : Numbered (readable fmt bytes)) :
    (onDisk bytes).Sound fmt front rest where
  divides := h
  numbered := hnumbered
  counted _ last hlast := by cases hlast
  buf_eq := rfl
  front_synced := by
    change front.length ≤ bytes.length
    rw [h.eq_append, List.length_append]
    exact Nat.le_add_right _ _
  synced_le := le_rfl

theorem openBucket (h : s.Sound fmt front rest) :
    (s.openBucket fmt).Sound fmt front rest ∧ (s.openBucket fmt).file.file = s.file.file ∧
      (rest = [] → (s.openBucket fmt).commitIdx = some (readable fmt s.file.file).length) := by
  unfold BucketState.openBucket
  cases hopen : s.commitIdx with
  | some last => exact ⟨h, rfl, fun hrest => by rw [hopen, ← h.counted hrest last hopen]⟩
  | none =>
    have hlast := h.divides.lastCommitIndex_eq h.numbered
    refine ⟨⟨h.divides, h.numbered, fun _ last heq => ?_, rfl, h.front_synced, h.synced_le⟩, rfl, fun _ => ?_⟩
    · rw [← Option.some.inj heq]
      exact hlast
    · exact congrArg some hlast

theorem reopen (h : s.Sound fmt front rest) :
    BucketState.Sound fmt ⟨s.file.flush none, none⟩ front rest ∧ (s.file.flush none).file = s.file.file := by
  have hflush : (s.file.flush none).file = s.file.file ∧ (s.file.flush none).buf = [] ∧
      (s.file.flush none).synced = s.file.synced := by
    by_cases hfailed : s.file.failed = true
    · rw [BufferedFile.flush, if_pos hfailed]
      exact ⟨rfl, h.buf_eq, rfl⟩
    · rw [s.file.flush_none (eq_false_of_ne_true hfailed), BufferedFile.content, h.buf_eq, List.append_nil]
      exact ⟨rfl, rfl, rfl⟩
  obtain ⟨hfile, hbuf, hsynced⟩ := hflush
  refine ⟨⟨?_, ?_, fun _ last heq => (by cases heq), hbuf, ?_, ?_⟩, hfile⟩
  · exact hfile ▸ h.divides
  · exact hfile ▸ h.numbered
  · exact hsynced ▸ h.front_synced
  · exact hfile ▸ hsynced ▸ h.synced_le

variable {entry : WALEntry B} {now : ℤ}

theorem synced (h : s.Sound fmt front []) (hopen : s.commitIdx = some (readable fmt s.file.file).length)
    (hsize : (s.stampedJSON fmt entry now).length < 2 ^ 31) :
    BucketState.Sound fmt
      ⟨BufferedFile.fsync { s.file with file := s.file.file ++ s.stampedFrame fmt entry now },
        some (s.stamp entry now).commitIndex⟩ (front ++ s.stampedFrame fmt entry now) [] := by
  obtain ⟨hdivides, hreadable⟩ := readable_stampedFrame h.divides hsize
  have hindex : (s.stamp entry now).commitIndex = (readable fmt s.file.file).length + 1 := by
    change s.commitIdx.getD 0 + 1 = _
    rw [hopen]
    rfl
  have hnumbered : Numbered (readable fmt (s.file.file ++ s.stampedFrame fmt entry now)) := by
    rw [hreadable]
    exact h.numbered.append (congrArg (fun index => [index]) hindex)
  refine ⟨hdivides, hnumbered, fun _ last hlast => ?_, h.buf_eq, ?_, le_rfl⟩
  · rw [← Option.some.inj hlast, hindex]
    change _ = (readable fmt (s.file.file ++ s.stampedFrame fmt entry now)).length
    rw [hreadable, List.length_append, List.length_singleton]
  · change _ ≤ (s.file.file ++ s.stampedFrame fmt entry now).length
    rw [hdivides.eq_append, List.append_nil]

theorem rejected (h : s.Sound fmt front rest) {t : BucketState} {more : List UInt8}
    (hfile : t.file.file = s.file.file ++ more) (hbuf : t.file.buf = [])
    (hsynced : s.file.synced ≤ t.file.synced) (hle : t.file.synced ≤ t.file.file.length)
    (hrejected : validFrames fmt (rest ++ more) = []) (hcommit : rest ++ more = [] → t.commitIdx = s.commitIdx) :
    t.Sound fmt front (rest ++ more) ∧ readable fmt t.file.file = readable fmt s.file.file := by
  have hdivides : Divides fmt t.file.file front (rest ++ more) :=
    ⟨by rw [hfile, h.divides.eq_append, List.append_assoc], h.divides.clean, h.divides.valid, hrejected⟩
  have hreadable : readable fmt t.file.file = readable fmt s.file.file :=
    hdivides.readable_eq.trans h.divides.readable_eq.symm
  refine ⟨⟨hdivides, hreadable ▸ h.numbered, fun hnil last hlast => ?_, hbuf, h.front_synced.trans hsynced, hle⟩,
    hreadable⟩
  rw [hcommit hnil] at hlast
  rw [hreadable]
  exact h.counted (List.append_eq_nil_iff.mp hnil).1 last hlast

end Sound

end BucketState

end SevenDB.Bucket
