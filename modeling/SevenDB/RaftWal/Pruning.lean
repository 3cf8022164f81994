import SevenDB.RaftWal.Segments

/-!
# Pruning the shadow log while it is written

A prune remembers the number of the open segment under the lock. Without the lock it then lists the
segment files, scans one after another for its highest index, and deletes those whose highest index
is below the given one, except the remembered segment. Appends come in between at any time. A file
that is deleted while the writer has it open stays writable but is no longer in the directory.
-/

namespace SevenDB.RaftWal

open SevenDB.Common

/-- How far a prune has come: it has remembered the open segment, it has segments left to scan, or it is
about to delete one. -/
inductive PrunePhase
  | idle
  | captured (pruneThrough : UInt64) (activeSeg : ℕ)
  | scanning (pruneThrough : UInt64) (activeSeg : ℕ) (segs : List ℕ)
  | deleting (pruneThrough : UInt64) (activeSeg seg : ℕ) (segs : List ℕ)
  deriving DecidableEq, Repr

/-- A writer with the numbers of the segments whose files were deleted, and a prune. -/
structure Pruning where
  w : Writer
  deleted : List ℕ
  phase : PrunePhase
  deriving DecidableEq, Repr

/-- What can happen: an append, a flush of the buffer, and the steps of a prune. -/
inductive PruneAction
  | append (call : Call)
  | flush
  | capture (pruneThrough : UInt64)
  | list
  | scan
  | delete
  deriving DecidableEq, Repr

def PruneAction.call? : PruneAction → Option Call
  | .append call => some call
  | _ => none

namespace Pruning

/-- The segment files that are in the directory. -/
def directory (s : Pruning) : List (ℕ × List UInt8) := s.w.directory.filter fun file => file.1 ∉ s.deleted

def file? (s : Pruning) (seg : ℕ) : Option (List UInt8) :=
  (s.directory.find? fun file => file.1 = seg).map Prod.snd

variable (cfg : Config) (codec : ByteCodec Envelope) (checksum : List UInt8 → UInt32)

/-- Scan the next segment. The remembered one is passed over, and an error ends the prune. -/
def scanNext (s : Pruning) (pruneThrough : UInt64) (activeSeg seg : ℕ) (segs : List ℕ) : Pruning :=
  if seg = activeSeg then { s with phase := .scanning pruneThrough activeSeg segs }
  else
    match (s.file? seg).map (maxIndexInSegment codec checksum) with
    | some (.ok maxIdx) =>
      if maxIdx < pruneThrough then { s with phase := .deleting pruneThrough activeSeg seg segs }
      else { s with phase := .scanning pruneThrough activeSeg segs }
    | _ => { s with phase := .idle }

/-- One step. A prune through zero does nothing, and there is one prune at a time. -/
def step (s : Pruning) : PruneAction → Option Pruning
  | .append call => (s.w.step cfg codec checksum call).map fun w => { s with w := w }
  | .flush => some { s with w := { s.w with out := s.w.out.flush none } }
  | .capture pruneThrough =>
    if s.phase = .idle ∧ pruneThrough ≠ 0 ∧ s.w.closed = false then
      some { s with phase := .captured pruneThrough s.w.segIdx }
    else none
  | .list =>
    match s.phase with
    | .captured pruneThrough activeSeg =>
      let segs := (sortFiles segmentFileName s.directory).map Prod.fst
      some { s with phase := .scanning pruneThrough activeSeg segs }
    | _ => none
  | .scan =>
    match s.phase with
    | .scanning _ _ [] => some { s with phase := .idle }
    | .scanning pruneThrough activeSeg (seg :: segs) =>
      some (s.scanNext codec checksum pruneThrough activeSeg seg segs)
    | _ => none
  | .delete =>
    match s.phase with
    | .deleting pruneThrough activeSeg seg segs =>
      some { s with deleted := seg :: s.deleted, phase := .scanning pruneThrough activeSeg segs }
    | _ => none

/-- The envelopes that are still in the directory or on their way to a file in it, in the order of the
segment numbers. -/
def remaining (s : Pruning) : List Envelope :=
  (s.w.contents.filter fun segment => segment.1 ∉ s.deleted).flatMap
    fun segment => envelopesIn codec checksum segment.2

end Pruning

/-- An append leaves the open segment. -/
def Writer.Rotates (cfg : Config) (codec : ByteCodec Envelope) (w : Writer) (call : Call) : Prop :=
  w.target call ≠ w.segIdx ∨
    cfg.segmentMaxBytesOrDefault ≤ w.currentOffset + (8 + (codec.encode call.env).length) ∨
    0 < cfg.forceRotateEvery ∧ (w.appendCount + 1) % cfg.forceRotateEvery = 0

instance (cfg : Config) (codec : ByteCodec Envelope) (w : Writer) (call : Call) :
    Decidable (w.Rotates cfg codec call) := inferInstanceAs (Decidable (_ ∨ _ ∨ _ ∧ _))

section Closed

variable {cfg : Config} {codec : ByteCodec Envelope} {checksum : List UInt8 → UInt32} {w next : Writer}
  {call : Call}

theorem segIdx_of_not_rotates (h : ¬ w.Rotates cfg codec call)
    (hstep : w.step cfg codec checksum call = some next) : next.segIdx = w.segIdx := by
  rw [Writer.Rotates, not_or, not_or] at h
  obtain ⟨htarget, hsize, hforced⟩ := h
  have hwrite (v : Writer) (hoffset : v.currentOffset = w.currentOffset) (hcount : v.appendCount = w.appendCount) :
      (v.writeFrame cfg checksum (codec.encode call.env)).segIdx = v.segIdx := by
    unfold Writer.writeFrame Writer.forceRotate
    dsimp only
    rw [hoffset, hcount, if_neg hsize]
    split
    · next hforce => rw [if_neg fun hdue => hforced ⟨hforce, hdue⟩]
    · rfl
  cases call with
  | envelope raftIndex env =>
    have hconflict : ¬ w.Conflicts raftIndex := by
      intro hconflict
      rw [Writer.target, if_pos hconflict] at htarget
      exact htarget (Nat.succ_ne_self _)
    rw [Writer.step, Writer.appendEnvelope, if_neg hconflict] at hstep
    split at hstep
    · cases hstep
    · cases hstep
      exact hwrite { w with lastIndex := raftIndex } rfl rfl
  | hardState env =>
    rw [Writer.step, Writer.appendHardState] at hstep
    split at hstep
    · cases hstep
    · cases hstep
      exact hwrite w rfl rfl

theorem segIdx_le_step (hhealthy : w.out.failed = false) (hstep : w.step cfg codec checksum call = some next) :
    w.segIdx ≤ next.segIdx := by
  obtain ⟨before, first, written, count, hbefore, _, hwrote, hnext⟩ := Writer.step_spec hhealthy hstep
  rw [hnext.segIdx_eq, hwrote.segIdx_eq, hbefore.segIdx_eq]
  omega

theorem mem_contents_of_lt (h : w.Sound codec checksum) (hstep : w.step cfg codec checksum call = some next)
    {segment : ℕ × List UInt8} (hsegment : segment ∈ next.contents) (hlt : segment.1 < w.segIdx) :
    segment ∈ w.files := by
  obtain ⟨before, first, written, count, hbefore, _, hwrote, hnext⟩ := Writer.step_spec h.healthy hstep
  have hfresh {from' count : ℕ} (hmem : segment ∈ Writer.freshSegments from' count) : from' ≤ segment.1 := by
    obtain ⟨n, hn, rfl⟩ := List.mem_map.mp hmem
    exact (List.mem_range'_1.mp hn).1
  have hwritten : segment ∈ written.contents := by
    rw [hnext.contents_eq] at hsegment
    refine (List.mem_append.mp hsegment).resolve_right fun hmem => ?_
    have hge := hfresh hmem
    rw [hwrote.segIdx_eq, hbefore.segIdx_eq] at hge
    omega
  have hold : segment ∈ before.files := by
    rw [Writer.contents, hwrote.files_eq] at hwritten
    refine (List.mem_append.mp hwritten).resolve_right fun hmem => ?_
    rw [List.mem_singleton.mp hmem, hwrote.segIdx_eq, hbefore.segIdx_eq] at hlt
    omega
  have hcontents : segment ∈ w.contents := by
    have hmem : segment ∈ before.contents := List.mem_append_left _ hold
    rw [hbefore.contents_eq] at hmem
    exact (List.mem_append.mp hmem).resolve_right fun hmoved => by have := hfresh hmoved; omega
  refine (List.mem_append.mp hcontents).resolve_right fun hmem => ?_
  rw [List.mem_singleton.mp hmem] at hlt
  exact Nat.lt_irrefl _ hlt

end Closed

end SevenDB.RaftWal
