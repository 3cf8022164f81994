import Mathlib.Data.List.Flatten
import SevenDB.RaftWal.Pruning
import SevenDB.RaftWal.ReplayOrder

/-!
# When pruning the shadow log is safe

A prune deletes only segments that were left before it has listed the files, provided that no append
leaves the open segment between the moment its number is remembered and the listing. Otherwise the
listing already holds the next open segment, which looks empty, and the prune deletes it.
-/

namespace SevenDB.RaftWal

open SevenDB.Common

variable {cfg : Config} {codec : ByteCodec Envelope} {checksum : List UInt8 → UInt32}

/-- A prune has remembered the open segment and has not listed the files yet. -/
def PrunePhase.isCaptured : PrunePhase → Bool
  | .captured _ _ => true
  | _ => false

/-- Appends fit a frame and do not leave the open segment between its capture and the listing, and a prune
goes no further than a given index. -/
def Undisturbed (cfg : Config) (codec : ByteCodec Envelope) (p : UInt64) (s : Pruning) : PruneAction → Prop
  | .append call => Fits codec call.env ∧ (s.phase.isCaptured = true → ¬ s.w.Rotates cfg codec call)
  | .capture pruneThrough => pruneThrough ≤ p
  | .flush | .list | .scan | .delete => True

instance (cfg : Config) (codec : ByteCodec Envelope) (p : UInt64) (s : Pruning) (action : PruneAction) :
    Decidable (Undisturbed cfg codec p s action) :=
  match action with
  | .append call =>
    inferInstanceAs (Decidable (Fits codec call.env ∧ (s.phase.isCaptured = true → ¬ s.w.Rotates cfg codec call)))
  | .capture pruneThrough => inferInstanceAs (Decidable (pruneThrough ≤ p))
  | .flush | .list | .scan | .delete => isTrue trivial

/-- A segment was left, and every envelope in it has an index below the given one. -/
def Covered (codec : ByteCodec Envelope) (checksum : List UInt8 → UInt32) (p : UInt64) (w : Writer) (seg : ℕ) :
    Prop :=
  seg < w.segIdx ∧ ∀ segment ∈ w.contents, segment.1 = seg →
    ∀ env ∈ envelopesIn codec checksum segment.2, env.raftIndex < p

/-- What a prune knows in each phase. -/
def PhaseSafe (codec : ByteCodec Envelope) (checksum : List UInt8 → UInt32) (p : UInt64) (w : Writer) :
    PrunePhase → Prop
  | .idle => True
  | .captured pruneThrough activeSeg => pruneThrough ≤ p ∧ activeSeg = w.segIdx
  | .scanning pruneThrough activeSeg segs =>
    pruneThrough ≤ p ∧ activeSeg ≤ w.segIdx ∧ ∀ seg ∈ segs, seg ≤ activeSeg
  | .deleting pruneThrough activeSeg seg segs =>
    pruneThrough ≤ p ∧ activeSeg ≤ w.segIdx ∧ (∀ seg ∈ segs, seg ≤ activeSeg) ∧ Covered codec checksum p w seg

/-- Every deleted segment is covered, and so is every one that is about to be deleted. -/
structure PruneSafe (codec : ByteCodec Envelope) (checksum : List UInt8 → UInt32) (p : UInt64) (s : Pruning) :
    Prop where
  sound : s.w.Sound codec checksum
  covered : ∀ seg ∈ s.deleted, Covered codec checksum p s.w seg
  phase : PhaseSafe codec checksum p s.w s.phase

section Steps

variable {p : UInt64} {w next : Writer} {call : Call}

section

variable (h : w.Sound codec checksum) (hstep : w.step cfg codec checksum call = some next)
include h hstep

theorem Covered.step {seg : ℕ}
    (hcovered : Covered codec checksum p w seg) : Covered codec checksum p next seg := by
  refine ⟨hcovered.1.trans_le (segIdx_le_step h.healthy hstep), fun segment hsegment hseg => ?_⟩
  have hold := mem_contents_of_lt h hstep hsegment (by rw [hseg]; exact hcovered.1)
  exact hcovered.2 segment (List.mem_append_left _ hold) hseg

/-- What a prune knows stays true when an append does not leave the segment that was just remembered. -/
theorem PhaseSafe.step {phase : PrunePhase} (hquiet : phase.isCaptured = true → next.segIdx = w.segIdx)
    (hphase : PhaseSafe codec checksum p w phase) : PhaseSafe codec checksum p next phase := by
  have hle := segIdx_le_step h.healthy hstep
  cases phase with
  | idle => trivial
  | captured pruneThrough activeSeg => exact ⟨hphase.1, hphase.2.trans (hquiet rfl).symm⟩
  | scanning pruneThrough activeSeg segs => exact ⟨hphase.1, hphase.2.1.trans hle, hphase.2.2⟩
  | deleting pruneThrough activeSeg seg segs =>
    exact ⟨hphase.1, hphase.2.1.trans hle, hphase.2.2.1, hphase.2.2.2.step h hstep⟩

end

/-- The highest index that a scan finds bounds every index in the segment. -/
theorem raftIndex_le_maxIndex {bytes : List UInt8} (hintact : Intact codec checksum bytes) {maxIdx : UInt64}
    (hmax : maxIndexInSegment codec checksum bytes = .ok maxIdx) :
    ∀ env ∈ envelopesIn codec checksum bytes, env.raftIndex ≤ maxIdx := by
  have hfold (envs : List Envelope) (start : UInt64) :
      start ≤ envs.foldl (fun max env => if max < env.raftIndex then env.raftIndex else max) start ∧
        ∀ env ∈ envs, env.raftIndex ≤
          envs.foldl (fun max env => if max < env.raftIndex then env.raftIndex else max) start := by
    induction envs generalizing start with
    | nil => exact ⟨UInt64.le_refl _, fun env henv => absurd henv List.not_mem_nil⟩
    | cons first rest ih =>
      obtain ⟨hstart, hrest⟩ := ih (if start < first.raftIndex then first.raftIndex else start)
      rw [List.foldl_cons]
      have hboth : start ≤ (if start < first.raftIndex then first.raftIndex else start) ∧
          first.raftIndex ≤ (if start < first.raftIndex then first.raftIndex else start) := by
        split
        · next hlt => exact ⟨UInt64.le_of_lt hlt, UInt64.le_refl _⟩
        · next hnot => exact ⟨UInt64.le_refl _, UInt64.not_lt.mp hnot⟩
      refine ⟨UInt64.le_trans hboth.1 hstart, fun env henv => ?_⟩
      rcases List.mem_cons.mp henv with rfl | hmem
      · exact UInt64.le_trans hboth.2 hstart
      · exact hrest env hmem
  rw [maxIndexInSegment, hintact.read_eq] at hmax
  cases hmax
  exact (hfold _ 0).2

theorem contents_flush (h : w.out.failed = false) :
    Writer.contents { w with out := w.out.flush none } = w.contents := by
  rw [Writer.contents, BufferedFile.flush_none _ h, Writer.contents]
  simp only [BufferedFile.content, List.append_nil]

theorem Writer.Sound.flush (h : w.Sound codec checksum) :
    Writer.Sound codec checksum { w with out := w.out.flush none } := by
  have hcontents := contents_flush h.healthy
  refine ⟨h.opened, ?_, ?_, ?_⟩
  · rw [BufferedFile.flush_none _ h.healthy]
    exact h.healthy
  · rw [hcontents]
    exact h.intact
  · rw [hcontents]
    exact h.ascending

theorem Covered.flush (hhealthy : w.out.failed = false) {seg : ℕ} (hcovered : Covered codec checksum p w seg) :
    Covered codec checksum p { w with out := w.out.flush none } seg := by
  rw [Covered, contents_flush hhealthy]
  exact hcovered

theorem PhaseSafe.flush (hhealthy : w.out.failed = false) {phase : PrunePhase}
    (hphase : PhaseSafe codec checksum p w phase) :
    PhaseSafe codec checksum p { w with out := w.out.flush none } phase := by
  cases phase with
  | idle => trivial
  | captured pruneThrough activeSeg => exact hphase
  | scanning pruneThrough activeSeg segs => exact hphase
  | deleting pruneThrough activeSeg seg segs =>
    exact ⟨hphase.1, hphase.2.1, hphase.2.2.1, hphase.2.2.2.flush hhealthy⟩

theorem Writer.Sound.eq_of_number_eq (h : w.Sound codec checksum) {first second : ℕ × List UInt8}
    (hfirst : first ∈ w.contents) (hsecond : second ∈ w.contents) (hnumber : first.1 = second.1) :
    first = second :=
  List.inj_on_of_nodup_map (h.ascending.imp fun hlt => hlt.ne) hfirst hsecond hnumber

end Steps

section Preservation

variable {p : UInt64} {s t : Pruning}

/-- The files in the directory have numbers up to that of the open segment, and those below it are files
that were left. -/
theorem mem_directory {seg : ℕ} {bytes : List UInt8} (h : s.w.Sound codec checksum)
    (hmem : (seg, bytes) ∈ s.directory) :
    seg ≤ s.w.segIdx ∧ (seg < s.w.segIdx → (seg, bytes) ∈ s.w.files) := by
  rcases List.mem_append.mp (List.mem_of_mem_filter hmem) with hfile | hopen
  · exact ⟨(h.lt_segIdx hfile).le, fun _ => hfile⟩
  · cases List.mem_singleton.mp hopen
    exact ⟨Nat.le_refl _, fun hlt => absurd hlt (Nat.lt_irrefl _)⟩

theorem covered_of_scan (h : s.w.Sound codec checksum) {seg : ℕ} (hlt : seg < s.w.segIdx) {bytes : List UInt8}
    (hfile : s.file? seg = some bytes) {maxIdx : UInt64}
    (hmax : maxIndexInSegment codec checksum bytes = .ok maxIdx) (hbelow : maxIdx < p) :
    Covered codec checksum p s.w seg := by
  obtain ⟨⟨number, content⟩, hfind, rfl⟩ := Option.map_eq_some_iff.mp hfile
  have hnumber : number = seg := by simpa using List.find?_some hfind
  subst hnumber
  have hleft := (mem_directory h (List.mem_of_find?_eq_some hfind)).2 hlt
  have hmem : (number, content) ∈ s.w.contents := List.mem_append_left _ hleft
  refine ⟨hlt, fun segment hsegment hsame env henv => ?_⟩
  have hsegmentEq := h.eq_of_number_eq hsegment hmem hsame
  rw [hsegmentEq] at henv
  exact UInt64.lt_of_le_of_lt (raftIndex_le_maxIndex (h.intact _ hmem) hmax env henv) hbelow

theorem PruneSafe.flush (h : PruneSafe codec checksum p s) :
    PruneSafe codec checksum p { s with w := { s.w with out := s.w.out.flush none } } where
  sound := h.sound.flush
  covered seg hseg := (h.covered seg hseg).flush h.sound.healthy
  phase := h.phase.flush h.sound.healthy

theorem PruneSafe.scanNext (h : PruneSafe codec checksum p s) {pruneThrough : UInt64} {activeSeg seg : ℕ}
    {segs : List ℕ} (hphase : s.phase = .scanning pruneThrough activeSeg (seg :: segs)) :
    PruneSafe codec checksum p (s.scanNext codec checksum pruneThrough activeSeg seg segs) := by
  have hknown := h.phase
  rw [hphase] at hknown
  obtain ⟨hthrough, hactive, hsegs⟩ := hknown
  have hrest : ∀ other ∈ segs, other ≤ activeSeg := fun other hother => hsegs other (List.mem_cons_of_mem seg hother)
  unfold Pruning.scanNext
  split
  · exact ⟨h.sound, h.covered, hthrough, hactive, hrest⟩
  · next hother =>
    split
    · next maxIdx hscan =>
      obtain ⟨bytes, hfile, hmax⟩ := Option.map_eq_some_iff.mp hscan
      have hlt : seg < s.w.segIdx :=
        (Nat.lt_of_le_of_ne (hsegs seg List.mem_cons_self) hother).trans_le hactive
      split
      · next hbelow =>
        exact ⟨h.sound, h.covered, hthrough, hactive, hrest,
          covered_of_scan h.sound hlt hfile hmax (UInt64.lt_of_lt_of_le hbelow hthrough)⟩
      · exact ⟨h.sound, h.covered, hthrough, hactive, hrest⟩
    · exact ⟨h.sound, h.covered, trivial⟩

theorem w_scanNext (pruneThrough : UInt64) (activeSeg seg : ℕ) (segs : List ℕ) :
    (s.scanNext codec checksum pruneThrough activeSeg seg segs).w = s.w := by
  unfold Pruning.scanNext
  split
  · rfl
  · split
    · split <;> rfl
    · rfl

/-- Every undisturbed step keeps a prune safe, and stores what it appends. -/
theorem PruneSafe.step (h : PruneSafe codec checksum p s) {action : PruneAction}
    (hquiet : Undisturbed cfg codec p s action) (hstep : s.step cfg codec checksum action = some t) :
    PruneSafe codec checksum p t ∧
      t.w.stored codec checksum = s.w.stored codec checksum ++ (action.call?.map Call.env).toList := by
  cases action with
  | append call =>
    obtain ⟨next, hnext, rfl⟩ := Option.map_eq_some_iff.mp hstep
    obtain ⟨hsound, hstored⟩ := h.sound.step hquiet.1 hnext
    exact ⟨⟨hsound, fun seg hseg => (h.covered seg hseg).step h.sound hnext,
      h.phase.step h.sound hnext fun hcaptured => segIdx_of_not_rotates (hquiet.2 hcaptured) hnext⟩, hstored⟩
  | flush =>
    cases hstep
    refine ⟨h.flush, ?_⟩
    rw [Writer.stored, contents_flush h.sound.healthy]
    exact (List.append_nil _).symm
  | capture pruneThrough =>
    rw [Pruning.step] at hstep
    split at hstep
    · cases hstep
      exact ⟨⟨h.sound, h.covered, hquiet, rfl⟩, (List.append_nil _).symm⟩
    · cases hstep
  | list =>
    rw [Pruning.step] at hstep
    split at hstep
    · next pruneThrough activeSeg hphase =>
      cases hstep
      have hknown := h.phase
      rw [hphase] at hknown
      refine ⟨⟨h.sound, h.covered, hknown.1, hknown.2.le, fun seg hseg => ?_⟩, (List.append_nil _).symm⟩
      rw [hknown.2]
      obtain ⟨⟨number, bytes⟩, hlisted, rfl⟩ := List.mem_map.mp hseg
      exact (mem_directory h.sound ((List.perm_insertionSort _ _).mem_iff.mp hlisted)).1
    · cases hstep
  | scan =>
    rw [Pruning.step] at hstep
    split at hstep
    · cases hstep
      exact ⟨⟨h.sound, h.covered, trivial⟩, (List.append_nil _).symm⟩
    · next pruneThrough activeSeg seg segs hphase =>
      cases hstep
      refine ⟨h.scanNext hphase, ?_⟩
      rw [w_scanNext]
      exact (List.append_nil _).symm
    · cases hstep
  | delete =>
    rw [Pruning.step] at hstep
    split at hstep
    · next pruneThrough activeSeg seg segs hphase =>
      cases hstep
      have hknown := h.phase
      rw [hphase] at hknown
      obtain ⟨hthrough, hactive, hsegs, hcovered⟩ := hknown
      refine ⟨⟨h.sound, fun other hother => ?_, hthrough, hactive, hsegs⟩, (List.append_nil _).symm⟩
      rcases List.mem_cons.mp hother with rfl | hold
      · exact hcovered
      · exact h.covered other hold
    · cases hstep

/-- Every undisturbed run keeps a prune safe, and stores what it appends. -/
theorem PruneSafe.run {actions : List PruneAction}
    (hrun : Run (Pruning.step cfg codec checksum) (Undisturbed cfg codec p) s actions t)
    (h : PruneSafe codec checksum p s) :
    PruneSafe codec checksum p t ∧
      t.w.stored codec checksum =
        s.w.stored codec checksum ++ (actions.filterMap PruneAction.call?).map Call.env := by
  induction hrun with
  | nil => exact ⟨h, (List.append_nil _).symm⟩
  | @cons _ _ _ action rest hquiet hstep _ ih =>
    obtain ⟨hnext, hstored⟩ := h.step hquiet hstep
    obtain ⟨hfinal, hall⟩ := ih hnext
    refine ⟨hfinal, ?_⟩
    rw [hall, hstored, List.append_assoc]
    congr 1
    cases action <;> rfl

end Preservation

/-- In every undisturbed run of appends and prunes up to an index, the envelopes with at least this index
are all there in the order of their appends, the open segment is not deleted, and what remains is in the
order of the appends. -/
theorem prune_keeps_envelopes {w : Writer} (hw : w.Sound codec checksum) {p : UInt64}
    {actions : List PruneAction} {s : Pruning}
    (hrun : Run (Pruning.step cfg codec checksum) (Undisturbed cfg codec p) ⟨w, [], .idle⟩ actions s) :
    (s.remaining codec checksum).filter (p ≤ ·.raftIndex) =
        (w.stored codec checksum ++ (actions.filterMap PruneAction.call?).map Call.env).filter (p ≤ ·.raftIndex) ∧
      s.w.segIdx ∉ s.deleted ∧
      (s.remaining codec checksum).Sublist
        (w.stored codec checksum ++ (actions.filterMap PruneAction.call?).map Call.env) := by
  obtain ⟨hsafe, hstored⟩ := PruneSafe.run hrun
    (⟨hw, fun seg hseg => absurd hseg List.not_mem_nil, trivial⟩ : PruneSafe codec checksum p ⟨w, [], .idle⟩)
  rw [← hstored]
  refine ⟨?_, fun hdeleted => Nat.lt_irrefl _ (hsafe.covered _ hdeleted).1, ?_⟩
  · refine filter_flatMap_filter _ _ _ fun segment hsegment hdropped env henv => ?_
    have hdeleted : segment.1 ∈ s.deleted := by simpa using hdropped
    have hbelow := (hsafe.covered _ hdeleted).2 segment hsegment rfl env henv
    exact decide_eq_false (UInt64.not_le.mpr hbelow)
  · exact List.filter_sublist.flatMap _

/-- A prune of the first segment, during which an append goes on to the next segment after the listing. -/
theorem prune_keeps_envelopes_two_segments :
    ∃ s : Pruning,
      Run (Pruning.step rotatingConfig tallyEnvelope lengthChecksum) (Undisturbed rotatingConfig tallyEnvelope 2)
        ⟨newWriter rotatingConfig [], [], .idle⟩
        [.append (normalCall 1), .append (normalCall 2), .capture 2, .list, .scan, .delete,
          .append (normalCall 3), .scan, .scan, .scan] s ∧
      s.deleted = [0] ∧ s.w.segIdx ∉ s.deleted ∧
      (s.remaining tallyEnvelope lengthChecksum).filter (2 ≤ ·.raftIndex) =
        [(normalCall 2).env, (normalCall 3).env] := by
  refine exists_run_imp _ (fun s : Pruning => s.deleted = [0]) (by decide +kernel) (fun _ _ => id)
    fun s hrun hdeleted => ?_
  obtain ⟨hkept, hopen, _⟩ := prune_keeps_envelopes (sound_newWriter rotatingConfig).1 hrun
  exact ⟨hdeleted, hopen, hkept.trans (by decide +kernel)⟩

/-- An append goes on to the next segment between the capture and the listing. The prune takes this segment
for an empty old one and deletes it while it is open, and an entry above the index is lost. -/
theorem prune_deletes_open_segment :
    ∃ s : Pruning,
      Run (Pruning.step rotatingConfig tallyEnvelope lengthChecksum) (fun _ _ => True)
        ⟨newWriter rotatingConfig [], [], .idle⟩
        [.append (normalCall 1), .capture 2, .append (normalCall 2), .list, .scan, .delete, .scan, .scan,
          .delete] s ∧
      s.w.segIdx ∈ s.deleted ∧
      ∃ t ∈ s.step rotatingConfig tallyEnvelope lengthChecksum (.append (normalCall 3)),
        t.remaining tallyEnvelope lengthChecksum = [(normalCall 2).env] :=
  exists_run (by decide +kernel)

end SevenDB.RaftWal
