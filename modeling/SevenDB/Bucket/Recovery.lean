import Mathlib.Data.List.Infix
import SevenDB.Bucket.BucketEntries

/-!
# Recovery of the buckets after a crash

A crash may leave any bytes behind the entries that were synced. The log that is opened afterwards scans up
to the first damage but appends behind it. When these bytes are whole frames whose entries go on with the
next commit indices, every entry that was synced or acknowledged is read ever after, and the commit indices
have no gaps. Otherwise an append may succeed whose entry no read returns.
-/

namespace SevenDB.Bucket

open SevenDB.Common

variable {B : Type*} {paths : BucketPaths B} (fmt : BucketFormat B)

/-- The bytes behind the synced ones are whole frames with matching checksums, none of them empty, and their
entries have the next commit indices. -/
structure Continues (synced tail : List UInt8) : Prop where
  clean : (sizeFirst.scan tail).2 = .clean
  valid : ∀ f ∈ (sizeFirst.scan tail).1, f.payload ≠ [] ∧ fmt.matches f = true
  numbered : ((sizeFirst.scan tail).1.filterMap fmt.entryIn).map (·.commitIndex) =
    List.range' ((readable fmt synced).length + 1) ((sizeFirst.scan tail).1.filterMap fmt.entryIn).length

/-- No write of an append fails. -/
def NoFaults : BucketAction B → Prop
  | .append _ _ faults => faults = .none
  | _ => True

instance (action : BucketAction B) : Decidable (NoFaults action) :=
  match action with
  | .append _ _ faults => inferInstanceAs (Decidable (faults = .none))
  | .read _ => .isTrue trivial
  | .reopen => .isTrue trivial
  | .crash _ => .isTrue trivial

/-- Every crash leaves whole frames with the next commit indices behind the synced bytes. -/
def Recovers (log : FileBucketLog paths) : BucketAction B → Prop
  | .crash tails => ∀ b, Continues fmt (log.bucket b).file.durable (tails (paths.path b))
  | _ => True

/-- A file has no rest and is synced, and the writer of an open bucket has not failed. -/
structure BucketState.Whole (s : BucketState) : Prop where
  sound : s.Sound fmt s.file.file []
  healthy : s.commitIdx ≠ none → s.file.failed = false

namespace BucketState.Whole

variable {fmt} {s : BucketState}

/-- Everything in the file is synced. -/
theorem durable_eq (h : s.Whole fmt) : s.file.durable = s.file.file :=
  List.take_of_length_le h.sound.front_synced

/-- A file of numbered frames alone is whole after a start. -/
theorem onDisk {bytes : List UInt8} (h : Divides fmt bytes bytes []) (hnumbered : Numbered (readable fmt bytes)) :
    (onDisk bytes).Whole fmt :=
  ⟨.onDisk h hnumbered, fun hopen => absurd rfl hopen⟩

/-- Opening keeps the file and counts its entries. -/
theorem openBucket (h : s.Whole fmt) :
    (s.openBucket fmt).Whole fmt ∧ (s.openBucket fmt).file.file = s.file.file ∧
      (s.openBucket fmt).commitIdx = some (readable fmt s.file.file).length := by
  obtain ⟨hsound, hfile, hcommit⟩ := h.sound.openBucket
  refine ⟨⟨?_, fun _ => ?_⟩, hfile, hcommit rfl⟩
  · rw [hfile]
    exact hsound
  · unfold BucketState.openBucket
    cases hopen : s.commitIdx with
    | some last => exact h.healthy (by rw [hopen]; exact Option.some_ne_none last)
    | none => rfl

/-- Closing and starting anew keep the file. -/
theorem reopen (h : s.Whole fmt) :
    BucketState.Whole fmt ⟨s.file.flush none, none⟩ ∧ (s.file.flush none).file = s.file.file := by
  obtain ⟨hsound, hfile⟩ := h.sound.reopen
  refine ⟨⟨?_, fun hopen => absurd rfl hopen⟩, hfile⟩
  change BucketState.Sound fmt _ (s.file.flush none).file []
  rw [hfile]
  exact hsound

/-- A crash keeps the entries when what it leaves goes on with them. -/
theorem crash (h : s.Whole fmt) {tail : List UInt8} (htail : Continues fmt s.file.durable tail) :
    (BucketState.onDisk (s.file.durable ++ tail)).Whole fmt ∧
      readable fmt s.file.file <+: readable fmt (s.file.durable ++ tail) := by
  have hnumbered := htail.numbered
  rw [h.durable_eq] at hnumbered ⊢
  have hreadable := h.sound.divides.readable_append htail.clean htail.valid
  refine ⟨.onDisk (h.sound.divides.append htail.clean htail.valid) ?_, hreadable ▸ List.prefix_append _ _⟩
  rw [hreadable]
  exact h.sound.numbered.append hnumbered

/-- An append is refused, or puts its frame at the end of the file. -/
theorem append (h : s.Whole fmt) (hopen : s.commitIdx = some (readable fmt s.file.file).length)
    (entry : WALEntry B) (now : ℤ) :
    (∃ error, s.append fmt entry now .none = (s, .error error)) ∨
      ∃ t, s.append fmt entry now .none = (t, .ok (s.stamp entry now)) ∧ t.Whole fmt ∧
        (s.stampedJSON fmt entry now).length < 2 ^ 31 ∧
        t.file.file = s.file.file ++ s.stampedFrame fmt entry now := by
  have hhealthy := h.healthy (by rw [hopen]; exact Option.some_ne_none _)
  have hspec := append_spec fmt entry now h.sound.buf_eq .none
  generalize s.append fmt entry now .none = result at hspec
  cases hspec with
  | refused size hsize => exact .inl ⟨_, rfl⟩
  | stuck hfailed => exact absurd (hfailed.symm.trans hhealthy) (by decide)
  | torn sent error _ hsize hsent hne hfaults => exact absurd rfl hfaults
  | unsynced hfsync => cases hfsync
  | synced _ hsize =>
    exact .inr ⟨_, rfl, ⟨h.sound.synced hopen hsize, fun _ => hhealthy⟩, hsize, rfl⟩

end BucketState.Whole

namespace FileBucketLog

/-- The files of all buckets have no rest and are synced. -/
def Whole (log : FileBucketLog paths) : Prop := ∀ b, (log.bucket b).Whole fmt

/-- Since an earlier state the entries of every bucket are still there, and others may have come after them. -/
def Keeps (log later : FileBucketLog paths) : Prop := ∀ b, log.entries fmt b <+: later.entries fmt b

variable {fmt} {log next later : FileBucketLog paths}

/-- A new log is whole. -/
theorem whole_new : (new : FileBucketLog paths).Whole fmt := fun _ => .onDisk .nil rfl

/-- A bucket may change to a whole state with its entries in front. -/
theorem Whole.set (h : log.Whole fmt) {b : B} {s : BucketState} (hs : s.Whole fmt)
    (hentries : readable fmt (log.bucket b).file.file <+: readable fmt s.file.file) :
    (log.set b s).Whole fmt ∧ log.Keeps fmt (log.set b s) := by
  constructor
  · exact log.forall_bucket_set hs fun other _ => h other
  · exact log.forall_bucket_set
      (P := fun other t => log.entries fmt other <+: readable fmt t.file.file) hentries fun _ _ => List.prefix_rfl

/-- An append keeps the entries, and its own is there when it has succeeded. -/
theorem Whole.append (h : log.Whole fmt) (entry : Option (WALEntry B)) (now : ℤ) :
    (log.append fmt entry now .none).1.Whole fmt ∧ log.Keeps fmt (log.append fmt entry now .none).1 ∧
      ∀ e ∈ log.acknowledged fmt (.append entry now .none),
        e ∈ (log.append fmt entry now .none).1.entries fmt e.bucketID := by
  cases entry with
  | none => exact ⟨h, fun _ => List.prefix_rfl, fun e he => absurd he List.not_mem_nil⟩
  | some entry =>
    obtain ⟨hwhole, hfile, hopen⟩ := (h entry.bucketID).openBucket
    rw [← hfile] at hopen
    rw [acknowledged]
    unfold FileBucketLog.append
    dsimp only
    rcases hwhole.append hopen entry now with ⟨error, hdone⟩ | ⟨t, hdone, ht, hsize, hsent⟩
    · rw [hdone]
      obtain ⟨hset, hkeeps⟩ := h.set hwhole (by rw [hfile])
      exact ⟨hset, hkeeps, fun e he => absurd he List.not_mem_nil⟩
    · have hadded := (BucketState.readable_stampedFrame hwhole.sound.divides hsize).2
      rw [← hsent] at hadded
      rw [hdone]
      obtain ⟨hset, hkeeps⟩ := h.set ht (by rw [hadded, hfile]; exact List.prefix_append _ _)
      refine ⟨hset, hkeeps, fun e he => ?_⟩
      rw [List.mem_singleton.mp he, entries]
      change _ ∈ readable fmt ((log.set entry.bucketID t).bucket entry.bucketID).file.file
      rw [bucket_set_self, hadded]
      exact List.mem_append_right _ (List.mem_singleton_self _)

/-- A step without faults keeps the entries and adds those that it acknowledges. -/
theorem Whole.step (h : log.Whole fmt) {action : BucketAction B} (hfaults : NoFaults action)
    (hrecovers : Recovers fmt log action) (hstep : log.step fmt action = some next) :
    next.Whole fmt ∧ log.Keeps fmt next ∧ ∀ e ∈ log.acknowledged fmt action, e ∈ next.entries fmt e.bucketID := by
  cases action with
  | append entry now faults =>
    rw [← Option.some.inj hstep, show faults = .none from hfaults]
    exact h.append entry now
  | read b =>
    rw [← Option.some.inj hstep]
    obtain ⟨hwhole, hfile, _⟩ := (h b).openBucket
    obtain ⟨hset, hkeeps⟩ := h.set hwhole (by rw [hfile])
    exact ⟨hset, hkeeps, fun e he => absurd he List.not_mem_nil⟩
  | reopen =>
    rw [← Option.some.inj hstep]
    refine ⟨fun b => (h b).reopen.1, fun b => ?_, fun e he => absurd he List.not_mem_nil⟩
    change readable fmt _ <+: readable fmt ((log.bucket b).file.flush none).file
    rw [(h b).reopen.2]
  | crash tails =>
    rw [← Option.some.inj hstep]
    exact ⟨fun b => ((h b).crash (hrecovers b)).1, fun b => ((h b).crash (hrecovers b)).2,
      fun e he => absurd he List.not_mem_nil⟩

/-- A run without faults keeps the entries and adds those that it acknowledges. -/
theorem Whole.run (h : log.Whole fmt) {actions : List (BucketAction B)}
    (hrun : Run (FileBucketLog.step fmt) (fun log action => NoFaults action ∧ Recovers fmt log action)
      log actions later) :
    later.Whole fmt ∧ log.Keeps fmt later ∧
      ∀ e ∈ outputs (FileBucketLog.step fmt) (acknowledged fmt) log actions, e ∈ later.entries fmt e.bucketID := by
  induction hrun with
  | nil => exact ⟨h, fun _ => List.prefix_rfl, fun e he => absurd he List.not_mem_nil⟩
  | cons hallowed hstep _ ih =>
    obtain ⟨hnext, hkeeps, hadded⟩ := h.step hallowed.1 hallowed.2 hstep
    obtain ⟨hlater, hrest, hothers⟩ := ih hnext
    refine ⟨hlater, fun b => (hkeeps b).trans (hrest b), fun e he => ?_⟩
    rw [outputs_cons _ _ hstep] at he
    rcases List.mem_append.mp he with hfirst | hlast
    · exact (hrest e.bucketID).subset (hadded e hfirst)
    · exact hothers e hlast

end FileBucketLog

section Recovery

/-- After every run in which no write fails and every crash leaves whole frames with the next commit indices
behind the synced bytes, the entries of the appends that have succeeded are read, the commit indices of every
bucket go from one on, and the entries that are synced are read ever after. -/
theorem bucketLog_recovers {actions : List (BucketAction B)} {log : FileBucketLog paths}
    (hrun : Run (FileBucketLog.step fmt) (fun log action => NoFaults action ∧ Recovers fmt log action)
      .new actions log) :
    (∀ e ∈ outputs (FileBucketLog.step fmt) (FileBucketLog.acknowledged fmt) (.new : FileBucketLog paths) actions,
      ∀ fromCommitIndex ≤ e.commitIndex, e ∈ log.read fmt e.bucketID fromCommitIndex) ∧
    (∀ b, (log.entries fmt b).map (·.commitIndex) = List.range' 1 (log.entries fmt b).length) ∧
    ∀ more later,
      Run (FileBucketLog.step fmt) (fun log action => NoFaults action ∧ Recovers fmt log action) log more later →
      ∀ b, ∀ e ∈ readable fmt (log.bucket b).file.durable, ∀ fromCommitIndex ≤ e.commitIndex,
        e ∈ later.read fmt b fromCommitIndex := by
  obtain ⟨hwhole, _, hadded⟩ := FileBucketLog.whole_new.run hrun
  refine ⟨fun e he index hindex => List.mem_filter.mpr ⟨hadded e he, decide_eq_true hindex⟩,
    fun b => (hwhole b).sound.numbered, fun more later hmore b e he index hindex => ?_⟩
  obtain ⟨_, hkeeps, _⟩ := hwhole.run hmore
  rw [(hwhole b).durable_eq] at he
  exact List.mem_filter.mpr ⟨(hkeeps b).subset he, decide_eq_true hindex⟩

/-- The frame of the entry that comes next. -/
def nextFrame : List UInt8 := (oneEntryLog.bucket true).stampedFrame tallyFormat (plainEntry true [6]) 2

/-- An append, a crash that leaves some bytes in the file of its bucket, and another append. -/
def crashActions (tail : List UInt8) : List (BucketAction Bool) :=
  [.append (some (plainEntry true [5])) 1 .none, .crash fun path => if path = twoPaths.path true then tail else [],
    .append (some (plainEntry true [7])) 3 .none]

/-- An append was in flight when the log crashed, and its frame reached the file. The log goes on with the
third commit index. -/
theorem bucketLog_recovers_whole_frame :
    ∃ log : FileBucketLog twoPaths, Run (FileBucketLog.step tallyFormat)
        (fun log action => NoFaults action ∧ Recovers tallyFormat log action) .new (crashActions nextFrame) log ∧
      (log.read tallyFormat true 2).map (·.payload) = [[6], [7]] ∧
      (log.entries tallyFormat true).map (·.commitIndex) = [1, 2, 3] := by
  have hcrash : ∀ b, Continues tallyFormat (oneEntryLog.bucket b).file.durable
      (if twoPaths.path b = twoPaths.path true then nextFrame else []) := by
    intro b
    cases b <;> exact ⟨by decide +kernel, by decide +kernel, by decide +kernel⟩
  have hrun : Run (FileBucketLog.step tallyFormat)
      (fun log action => NoFaults action ∧ Recovers tallyFormat log action) .new (crashActions nextFrame)
      ((oneEntryLog.crash fun path => if path = twoPaths.path true then nextFrame else []).append tallyFormat
        (some (plainEntry true [7])) 3 .none).1 :=
    .cons ⟨rfl, trivial⟩ rfl (.cons ⟨trivial, hcrash⟩ rfl (.cons ⟨rfl, trivial⟩ rfl (.nil _)))
  obtain ⟨_, hnumbered, _⟩ := bucketLog_recovers tallyFormat hrun
  exact ⟨_, hrun, by decide +kernel, (hnumbered true).trans (by decide +kernel)⟩

/-- The beginning of a frame is left by a crash. The append after it succeeds, and no read returns its
entry. -/
theorem torn_tail_hides_append :
    ∃ log : FileBucketLog twoPaths, Run (FileBucketLog.step tallyFormat) (fun _ action => NoFaults action) .new
        (crashActions (nextFrame.take 10)) log ∧
      ∃ e ∈ outputs (FileBucketLog.step tallyFormat) (FileBucketLog.acknowledged tallyFormat)
        (.new : FileBucketLog twoPaths) (crashActions (nextFrame.take 10)), e ∉ log.read tallyFormat e.bucketID 0 :=
  exists_run (by decide +kernel)

end Recovery

end SevenDB.Bucket
