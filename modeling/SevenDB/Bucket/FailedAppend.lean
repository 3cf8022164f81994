import SevenDB.Bucket.BucketEntries

/-!
# Appends that fail

An append may fail at a write, at the flush, or at the sync. When a write or the flush fails, the beginning
of the frame may be in the file, where no read comes to it, and the writer refuses everything after it. When
only the sync fails, the whole frame is in the file but its commit index does not count as used: the entry is
read, and the next append uses the index again.
-/

namespace SevenDB.Bucket

open SevenDB.Common

variable {B : Type*} {paths : BucketPaths B} (fmt : BucketFormat B)

/-- The sync of an append does not fail. Where a file has a rest and the writer has not failed, the bytes of
the append do not turn the rest into something that begins with a frame whose checksum matches. A crash leaves
the synced bytes and a part of what was written after them. -/
def Detects (log : FileBucketLog paths) : BucketAction B → Prop
  | .append (some entry) now faults =>
    faults.fsync = false ∧ (unread fmt (log.bucket entry.bucketID).file.file = [] ∨
      ((log.bucket entry.bucketID).openBucket fmt).file.failed = true ∨
      validFrames fmt (unread fmt (log.bucket entry.bucketID).file.file ++
        ((log.bucket entry.bucketID).openBucket fmt).stampedFrame fmt entry now) = [])
  | .append none _ _ => True
  | .read _ => True
  | .reopen => True
  | .crash tails => ∀ b, (log.bucket b).file.durable ++ tails (paths.path b) <+: (log.bucket b).file.file

/-- What an append comes to: an error, with nothing new to read, or success, with nothing or its entry new to
read. -/
def AppendResult (before after : List (WALEntry B)) (stamped : WALEntry B) :
    Except AppendError (WALEntry B) → Prop
  | .error _ => after = before
  | .ok e => e = stamped ∧ (after = before ∨ after = before ++ [stamped])

namespace BucketState.Sound

variable {fmt} {s : BucketState} {front rest : List UInt8}

theorem append (h : s.Sound fmt front rest)
    (hopen : rest = [] → s.commitIdx = some (readable fmt s.file.file).length)
    {entry : WALEntry B} {now : ℤ} {faults : AppendFaults} (hfsync : faults.fsync = false)
    (hrest : rest = [] ∨ s.file.failed = true ∨ validFrames fmt (rest ++ s.stampedFrame fmt entry now) = []) :
    (∃ front rest, (s.append fmt entry now faults).1.Sound fmt front rest) ∧
      AppendResult (readable fmt s.file.file) (readable fmt (s.append fmt entry now faults).1.file.file)
        (s.stamp entry now) (s.append fmt entry now faults).2 := by
  have hspec := append_spec fmt entry now h.buf_eq faults
  generalize s.append fmt entry now faults = result at hspec
  cases hspec with
  | refused size _ => exact ⟨⟨front, rest, h⟩, rfl⟩
  | stuck _ => exact ⟨⟨front, rest, h⟩, rfl⟩
  | torn sent error hhealthy hsize hsent hne _ =>
    have hrejected : validFrames fmt (rest ++ sent) = [] := by
      rcases hrest.imp_right fun hlater => hlater.resolve_left (Bool.eq_false_iff.mp hhealthy) with rfl | hrejected
      · exact validFrames_eq_nil (sizeFirst.scan_of_isPrefix_frame fmt.checksum (by omega) hsent hne)
      · obtain ⟨lost, hlost⟩ := hsent
        rw [← hlost, ← List.append_assoc] at hrejected
        exact validFrames_of_append lost hrejected
    obtain ⟨hsound, hreadable⟩ := h.rejected
      (t := { s with file := { s.file with file := s.file.file ++ sent, failed := true } }) rfl h.buf_eq le_rfl
      (by rw [List.length_append]; exact h.synced_le.trans (Nat.le_add_right _ _)) hrejected fun _ => rfl
    exact ⟨⟨front, rest ++ sent, hsound⟩, hreadable⟩
  | unsynced hfails => exact absurd (hfails.symm.trans hfsync) (by decide)
  | synced hhealthy hsize =>
    by_cases hempty : rest = []
    · subst hempty
      exact ⟨⟨_, _, h.synced (hopen rfl) hsize⟩, rfl, .inr (readable_stampedFrame h.divides hsize).2⟩
    · obtain ⟨hsound, hreadable⟩ := h.rejected
        (t := ⟨BufferedFile.fsync { s.file with file := s.file.file ++ s.stampedFrame fmt entry now },
          some (s.stamp entry now).commitIndex⟩) rfl h.buf_eq
        (by
          change s.file.synced ≤ (s.file.file ++ s.stampedFrame fmt entry now).length
          rw [List.length_append]
          exact h.synced_le.trans (Nat.le_add_right _ _))
        le_rfl ((hrest.resolve_left hempty).resolve_left (Bool.eq_false_iff.mp hhealthy))
        fun hnil => absurd (List.append_eq_nil_iff.mp hnil).1 hempty
      exact ⟨⟨front, _, hsound⟩, rfl, .inl hreadable⟩

theorem crash (h : s.Sound fmt front rest) {tail : List UInt8} (htail : s.file.durable ++ tail <+: s.file.file) :
    (∃ rest, (BucketState.onDisk (s.file.durable ++ tail)).Sound fmt front rest) ∧
      readable fmt (s.file.durable ++ tail) = readable fmt s.file.file := by
  have hfront : front.length ≤ (s.file.durable ++ tail).length := by
    rw [List.length_append, BufferedFile.durable, List.length_take_of_le h.synced_le]
    exact h.front_synced.trans (Nat.le_add_right _ _)
  obtain ⟨less, hdivides⟩ := h.divides.of_isPrefix htail hfront
  have hreadable := hdivides.readable_eq.trans h.divides.readable_eq.symm
  exact ⟨⟨less, .onDisk hdivides (hreadable ▸ h.numbered)⟩, hreadable⟩

end BucketState.Sound

namespace FileBucketLog

/-- The files of all buckets divide, with numbered and synced entries. -/
def Sound (log : FileBucketLog paths) : Prop := ∀ b, ∃ front rest, (log.bucket b).Sound fmt front rest

/-- What can be read of a bucket is as before, or has one more of some entries. -/
def Gains (log next : FileBucketLog paths) (entries : List (WALEntry B)) : Prop :=
  ∀ b, next.entries fmt b = log.entries fmt b ∨
    ∃ e ∈ entries, e.bucketID = b ∧ next.entries fmt b = log.entries fmt b ++ [e]

variable {fmt} {log next later : FileBucketLog paths}

theorem sound_new : (new : FileBucketLog paths).Sound fmt := fun _ => ⟨[], [], .onDisk .nil rfl⟩

theorem Sound.set (h : log.Sound fmt) {b : B} {s : BucketState} (hs : ∃ front rest, s.Sound fmt front rest)
    {entries : List (WALEntry B)}
    (hentries : readable fmt s.file.file = log.entries fmt b ∨
      ∃ e ∈ entries, e.bucketID = b ∧ readable fmt s.file.file = log.entries fmt b ++ [e]) :
    (log.set b s).Sound fmt ∧ log.Gains fmt (log.set b s) entries := by
  constructor
  · exact log.forall_bucket_set (P := fun _ t => ∃ front rest, t.Sound fmt front rest) hs fun other _ => h other
  · exact log.forall_bucket_set
      (P := fun other t => readable fmt t.file.file = log.entries fmt other ∨
        ∃ e ∈ entries, e.bucketID = other ∧ readable fmt t.file.file = log.entries fmt other ++ [e])
      hentries fun _ _ => .inl rfl

theorem Sound.append (h : log.Sound fmt) {entry : Option (WALEntry B)} {now : ℤ} {faults : AppendFaults}
    (hdetects : Detects fmt log (.append entry now faults)) :
    (log.append fmt entry now faults).1.Sound fmt ∧
      log.Gains fmt (log.append fmt entry now faults).1 (log.acknowledged fmt (.append entry now faults)) := by
  cases entry with
  | none => exact ⟨h, fun _ => .inl rfl⟩
  | some entry =>
    obtain ⟨front, rest, hbucket⟩ := h entry.bucketID
    obtain ⟨hopened, hfile, hcount⟩ := hbucket.openBucket
    obtain ⟨hfsync, hrest⟩ := hdetects
    rw [hbucket.divides.unread_eq] at hrest
    rw [← hfile] at hcount
    obtain ⟨hsound, hresult⟩ := hopened.append hcount hfsync hrest
    refine h.set hsound ?_
    rw [acknowledged, FileBucketLog.append]
    rw [hfile] at hresult
    cases hreply : (((log.bucket entry.bucketID).openBucket fmt).append fmt entry now faults).2 with
    | error error =>
      rw [hreply] at hresult
      exact .inl hresult
    | ok stamped =>
      rw [hreply] at hresult
      obtain ⟨rfl, hsame | hadded⟩ := hresult
      · exact .inl hsame
      · exact .inr ⟨_, List.mem_singleton_self _, rfl, hadded⟩

theorem Sound.step (h : log.Sound fmt) {action : BucketAction B} (hdetects : Detects fmt log action)
    (hstep : log.step fmt action = some next) :
    next.Sound fmt ∧ log.Gains fmt next (log.acknowledged fmt action) := by
  cases action with
  | append entry now faults =>
    rw [← Option.some.inj hstep]
    exact h.append hdetects
  | read b =>
    rw [← Option.some.inj hstep]
    obtain ⟨front, rest, hbucket⟩ := h b
    obtain ⟨hopened, hfile, _⟩ := hbucket.openBucket
    exact h.set ⟨front, rest, hopened⟩ (.inl (by rw [hfile, entries]))
  | reopen =>
    rw [← Option.some.inj hstep]
    constructor
    · intro b
      obtain ⟨front, rest, hbucket⟩ := h b
      exact ⟨front, rest, hbucket.reopen.1⟩
    · intro b
      obtain ⟨front, rest, hbucket⟩ := h b
      exact .inl (congrArg (readable fmt) hbucket.reopen.2)
  | crash tails =>
    rw [← Option.some.inj hstep]
    constructor
    · intro b
      obtain ⟨front, rest, hbucket⟩ := h b
      obtain ⟨less, hless⟩ := (hbucket.crash (hdetects b)).1
      exact ⟨front, less, hless⟩
    · intro b
      obtain ⟨front, rest, hbucket⟩ := h b
      exact .inl (hbucket.crash (hdetects b)).2

/-- After a run only entries that were acknowledged can be read besides those from before. -/
theorem Sound.run [DecidableEq B] (h : log.Sound fmt) {actions : List (BucketAction B)}
    (hrun : Run (FileBucketLog.step fmt) (Detects fmt) log actions later) :
    later.Sound fmt ∧ ∀ b, ∃ added, later.entries fmt b = log.entries fmt b ++ added ∧
      added.Sublist ((outputs (FileBucketLog.step fmt) (acknowledged fmt) log actions).filter (·.bucketID = b)) := by
  induction hrun with
  | nil => exact ⟨h, fun b => ⟨[], (List.append_nil _).symm, List.nil_sublist _⟩⟩
  | cons hallowed hstep _ ih =>
    obtain ⟨hnext, hgains⟩ := h.step hallowed hstep
    obtain ⟨hlater, hadded⟩ := ih hnext
    refine ⟨hlater, fun b => ?_⟩
    obtain ⟨added, hentries, hsublist⟩ := hadded b
    rw [outputs_cons _ _ hstep, List.filter_append]
    rcases hgains b with hsame | ⟨e, he, hb, hone⟩
    · exact ⟨added, by rw [hentries, hsame], hsublist.trans (List.sublist_append_right _ _)⟩
    · refine ⟨e :: added, by rw [hentries, hone, List.append_assoc]; rfl, ?_⟩
      have hfirst : [e].Sublist ((acknowledged fmt _ _).filter (·.bucketID = b)) :=
        List.singleton_sublist.mpr (List.mem_filter.mpr ⟨he, decide_eq_true hb⟩)
      exact hfirst.append hsublist

end FileBucketLog

section FailedAppend

variable [DecidableEq B]

end FailedAppend

end SevenDB.Bucket
