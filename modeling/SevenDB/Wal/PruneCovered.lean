import SevenDB.Wal.PruneThrough

/-!
# Pruning removes a covered front of the log

A prune has passed over every segment before the one that it removes. With positions that are not zero
and do not go down, a segment that was passed over and stands before a removed one has no entries, and
the last position of a segment is its highest. So a prune removes the front of the log, up to its index.
-/

namespace SevenDB.Wal

open SevenDB.Common

variable {I C : Type} {fmt : Format C}

section Jobs

variable {wl next : Forge} {job : PruneJob}

/-- The segments that a prune has still to examine are in order and below the open one, and those that it has
passed over have no position or a last one above its index. -/
structure PruneJob.Passed (fmt : Format C) (wl : Forge) (job : PruneJob) : Prop where
  ascending : job.candidates.Pairwise (· < ·)
  below : ∀ seg ∈ job.candidates, seg < wl.csIdx
  passed : ∀ file ∈ wl.files, (∃ seg ∈ job.candidates, file.1 < seg) → file.1 ∉ job.candidates →
    lastIndexOfSegment fmt file.2 = 0 ∨ job.index < lastIndexOfSegment fmt file.2

theorem PruneJob.Passed.addsFiles (h : job.Passed fmt wl) (hadds : wl.AddsFiles next) : job.Passed fmt next := by
  refine ⟨h.ascending, fun seg hseg => (h.below seg hseg).trans_le hadds.2, fun file hfile hbefore hnot => ?_⟩
  rcases hadds.1 file hfile with hold | hnew
  · exact h.passed file hold hbefore hnot
  · obtain ⟨seg, hseg, hlt⟩ := hbefore
    exact absurd (h.below seg hseg) (Nat.not_lt.mpr (hnew.trans hlt.le))

theorem PruneJob.Passed.removeFile (h : job.Passed fmt wl) (seg : ℕ) : job.Passed fmt (wl.removeFile seg) :=
  ⟨h.ascending, h.below, fun file hfile => h.passed file (List.mem_of_mem_filter hfile)⟩

theorem Forge.Whole.number_lt (h : wl.Whole fmt) {file : ℕ × List UInt8} (hfile : file ∈ wl.files) :
    file.1 < wl.csIdx := by
  have hascending := h.ascending
  rw [Forge.contents, List.map_append, List.pairwise_append] at hascending
  exact hascending.2.2 file.1 (List.mem_map_of_mem hfile) wl.csIdx List.mem_cons_self

theorem PruneJob.passed_candidates (h : wl.Whole fmt) (hbuf : wl.out.buf = []) (index : UInt64) :
    PruneJob.Passed fmt wl ⟨index, wl.candidates⟩ := by
  have hdirectory : sortFiles id wl.directory = wl.contents := by
    rw [Forge.directory, Forge.contents, BufferedFile.content, hbuf, List.append_nil]
    have hascending := h.ascending
    rw [Forge.contents, BufferedFile.content, hbuf, List.append_nil] at hascending
    exact Forge.sortFiles_of_ascending hascending
  have hcandidates : wl.candidates = (wl.contents.map Prod.fst).filter (· < wl.csIdx) := by
    rw [Forge.candidates, hdirectory]
  refine ⟨?_, fun seg hseg => ?_, fun file hfile _ hnot => absurd ?_ hnot⟩
  · rw [hcandidates]
    exact h.ascending.filter _
  · rw [hcandidates] at hseg
    exact of_decide_eq_true (List.mem_filter.mp hseg).2
  · rw [hcandidates]
    exact List.mem_filter.mpr ⟨List.mem_map_of_mem (List.mem_append_left _ hfile), decide_eq_true (h.number_lt hfile)⟩

/-- What examining a segment does: there is none left, it is passed over, or it is removed. -/
theorem examineNext_spec (h : wl.Whole fmt) (job : PruneJob) :
    wl.examineNext fmt job = (wl, none) ∨
    (∃ seg rest, job.candidates = seg :: rest ∧ wl.examineNext fmt job = (wl, some ⟨job.index, rest⟩) ∧
      ∀ file ∈ wl.files, file.1 = seg →
        lastIndexOfSegment fmt file.2 = 0 ∨ job.index < lastIndexOfSegment fmt file.2) ∨
    ∃ file ∈ wl.files, ∃ rest, job.candidates = file.1 :: rest ∧ lastIndexOfSegment fmt file.2 ≠ 0 ∧
      lastIndexOfSegment fmt file.2 ≤ job.index ∧ wl.examineNext fmt job = (wl.removeFile file.1, none) := by
  rw [Forge.examineNext]
  cases hcandidates : job.candidates with
  | nil => exact Or.inl rfl
  | cons seg rest =>
    right
    dsimp only
    cases hfind : wl.files.find? (·.1 = seg) with
    | none =>
      refine Or.inl ⟨seg, rest, rfl, rfl, fun file hfile hnumber => ?_⟩
      have hnot := List.find?_eq_none.mp hfind file hfile
      exact absurd (decide_eq_true hnumber) hnot
    | some file =>
      have hfile := List.mem_of_find?_eq_some hfind
      have hnumber : file.1 = seg := by simpa using List.find?_some hfind
      dsimp only
      by_cases hkeeps : lastIndexOfSegment fmt file.2 = 0 ∨ job.index < lastIndexOfSegment fmt file.2
      · rw [if_pos hkeeps]
        refine Or.inl ⟨seg, rest, rfl, rfl, fun other hother hsame => ?_⟩
        rw [h.eq_of_number_eq hother hfile (hsame.trans hnumber.symm)]
        exact hkeeps
      · rw [if_neg hkeeps]
        rw [not_or, UInt64.not_lt] at hkeeps
        refine Or.inr ⟨file, hfile, rest, ?_, hkeeps.1, hkeeps.2, ?_⟩
        · rw [hnumber]
        · rw [hnumber]

section

variable (h : job.Passed fmt wl) {seg : ℕ} {rest : List ℕ} (hcandidates : job.candidates = seg :: rest)
include h hcandidates

/-- The files below the next candidate of a prune were passed over. -/
theorem PruneJob.Passed.below_next {other : ℕ × List UInt8} (hother : other ∈ wl.files)
    (hlower : other.1 < seg) :
    lastIndexOfSegment fmt other.2 = 0 ∨ job.index < lastIndexOfSegment fmt other.2 := by
  have hsorted := h.ascending
  rw [hcandidates, List.pairwise_cons] at hsorted
  refine h.passed other hother ⟨seg, ?_, hlower⟩ fun hmem => ?_
  · rw [hcandidates]
    exact List.mem_cons_self
  · rw [hcandidates] at hmem
    rcases List.mem_cons.mp hmem with hsame | hlater
    · exact absurd hsame hlower.ne
    · exact absurd (hsorted.1 other.1 hlater) (Nat.not_lt.mpr hlower.le)

theorem PruneJob.Passed.tail (hkeeps : ∀ file ∈ wl.files, file.1 = seg →
      lastIndexOfSegment fmt file.2 = 0 ∨ job.index < lastIndexOfSegment fmt file.2) :
    PruneJob.Passed fmt wl ⟨job.index, rest⟩ := by
  obtain ⟨hascending, hbelow, hpassed⟩ := h
  rw [hcandidates] at hascending hbelow hpassed
  refine ⟨hascending.of_cons, fun other hother => hbelow other (List.mem_cons_of_mem seg hother),
    fun file hfile hbefore hnot => ?_⟩
  by_cases hseg : file.1 = seg
  · exact hkeeps file hfile hseg
  · obtain ⟨later, hlater, hlt⟩ := hbefore
    refine hpassed file hfile ⟨later, List.mem_cons_of_mem seg hlater, hlt⟩ fun hmem => ?_
    exact (List.mem_cons.mp hmem).elim hseg hnot

end

end Jobs

namespace Forge

variable {wl next : Forge}

/-- What is removed is covered by an index: only segments with positions up to the index are missing, the open
one is not among them, and the replays give the end of what they gave before. -/
def RemovesCovered (fmt : Format C) (wl next : Forge) (index : UInt64) : Prop :=
  (∀ segment ∈ wl.contents, segment ∉ next.contents →
    segment.1 ≠ wl.csIdx ∧ ∀ position ∈ positionsIn fmt segment.2, position ≤ index) ∧
  (replayItems fmt next.directory).1 <:+ (replayItems fmt wl.directory).1 ∧
  (replayCommand fmt next.directory).1 <:+ (replayCommand fmt wl.directory).1

theorem removesCovered_refl (fmt : Format C) (wl : Forge) (index : UInt64) : wl.RemovesCovered fmt wl index :=
  ⟨fun _ hsegment hnot => absurd hsegment hnot, List.suffix_rfl, List.suffix_rfl⟩

/-- The directory is what is left when the open segment is cut off after what was flushed. -/
theorem directory_eq_torn (wl : Forge) : wl.directory = wl.torn wl.out.file.length := by
  rw [directory, torn, BufferedFile.content, List.take_left]

theorem Ordered.itemsIn_before (h : wl.Ordered fmt) {before after : List (ℕ × List UInt8)} {file other : ℕ × List UInt8}
    (hfiles : wl.files = before ++ file :: after) (hother : other ∈ before) {index : UInt64}
    (hne : lastIndexOfSegment fmt file.2 ≠ 0) (hle : lastIndexOfSegment fmt file.2 ≤ index)
    (hpassed : lastIndexOfSegment fmt other.2 = 0 ∨ index < lastIndexOfSegment fmt other.2) :
    itemsIn fmt other.2 = [] := by
  have hmem : other ∈ wl.files := hfiles ▸ List.mem_append_left _ hother
  have hpositions : wl.positions fmt = (before.flatMap fun segment => positionsIn fmt segment.2) ++
      (positionsIn fmt file.2 ++ ((after ++ [(wl.csIdx, wl.out.content)]).flatMap fun segment =>
        positionsIn fmt segment.2)) := by
    rw [positions, contents, hfiles, List.append_assoc, List.flatMap_append, List.cons_append, List.flatMap_cons]
  have hlastFile : lastIndexOfSegment fmt file.2 ∈ positionsIn fmt file.2 := by
    rw [lastIndexOfSegment_eq] at hne ⊢
    rcases getLastD_mem_or (positionsIn fmt file.2) with hnil | hlast
    · exact absurd (by rw [← positionsIn, hnil]; rfl) hne
    · exact hlast
  refine (h.sound.intact other (List.mem_append_left _ hmem)).itemsIn_eq_nil ?_
  rcases getLastD_mem_or (positionsIn fmt other.2) with hnil | hlast
  · exact hnil
  · have hlastOther : lastIndexOfSegment fmt other.2 ∈ before.flatMap fun segment => positionsIn fmt segment.2 := by
      rw [lastIndexOfSegment_eq]
      exact List.mem_flatMap.mpr ⟨other, hother, hlast⟩
    have hascending := h.ascending
    rw [hpositions, List.pairwise_append] at hascending
    have hbefore := hascending.2.2 _ hlastOther _ (List.mem_append_left _ hlastFile)
    rcases hpassed with hzero | hlt
    · refine absurd hzero (h.numbered _ ?_)
      rw [hpositions]
      exact List.mem_append_left _ hlastOther
    · exact absurd (UInt64.le_trans hbefore hle) (UInt64.not_le.mpr hlt)

/-- The files below one of them and those above it are what is left when it is removed. -/
theorem Sound.exists_removeFile_files (h : wl.Sound fmt) {file : ℕ × List UInt8} (hfile : file ∈ wl.files) :
    ∃ before after, wl.files = before ++ file :: after ∧ (wl.removeFile file.1).files = before ++ after ∧
      ∀ other ∈ before, other.1 < file.1 := by
  obtain ⟨before, after, hfiles⟩ := List.append_of_mem hfile
  have hascending : (wl.files.map Prod.fst).Pairwise (· < ·) := by
    have hall := h.ascending
    rw [contents, List.map_append, List.pairwise_append] at hall
    exact hall.1
  rw [hfiles, List.map_append, List.map_cons, List.pairwise_append, List.pairwise_cons] at hascending
  obtain ⟨_, ⟨hafter, _⟩, hbefore⟩ := hascending
  have hlower (other : ℕ × List UInt8) (hother : other ∈ before) : other.1 < file.1 :=
    hbefore other.1 (List.mem_map_of_mem hother) file.1 List.mem_cons_self
  have hhigher (other : ℕ × List UInt8) (hother : other ∈ after) : file.1 < other.1 :=
    hafter other.1 (List.mem_map_of_mem hother)
  refine ⟨before, after, hfiles, ?_, hlower⟩
  change wl.files.filter (·.1 ≠ file.1) = _
  rw [hfiles, List.filter_append, List.filter_cons_of_neg (by simp)]
  congr 1
  · exact List.filter_eq_self.mpr fun other hother => decide_eq_true (hlower other hother).ne
  · exact List.filter_eq_self.mpr fun other hother => decide_eq_true (hhigher other hother).ne'

/-- Removing a segment that a prune has come to and that is covered by its index. -/
theorem Ordered.removesCovered (h : wl.Ordered fmt) {job : PruneJob} (hjob : job.Passed fmt wl)
    {file : ℕ × List UInt8} (hfile : file ∈ wl.files) {rest : List ℕ} (hcandidates : job.candidates = file.1 :: rest)
    (hne : lastIndexOfSegment fmt file.2 ≠ 0) (hle : lastIndexOfSegment fmt file.2 ≤ job.index) :
    wl.RemovesCovered fmt (wl.removeFile file.1) job.index := by
  obtain ⟨before, after, hfiles, hremoved, hlower⟩ := h.sound.exists_removeFile_files hfile
  have hpassed (other : ℕ × List UInt8) (hother : other ∈ before) :
      lastIndexOfSegment fmt other.2 = 0 ∨ job.index < lastIndexOfSegment fmt other.2 :=
    hjob.below_next hcandidates (hfiles ▸ List.mem_append_left _ hother) (hlower other hother)
  have hnone : (before.flatMap fun segment => itemsIn fmt segment.2) = [] :=
    List.flatMap_eq_nil_iff.mpr fun other hother => h.itemsIn_before hfiles hother hne hle (hpassed other hother)
  have hsuffix : (wl.removeFile file.1).completeItems fmt wl.out.file.length <:+
      wl.completeItems fmt wl.out.file.length := by
    rw [completeItems, completeItems, hremoved, hfiles, List.flatMap_append, List.flatMap_append, hnone,
      List.flatMap_cons, List.nil_append, List.nil_append, List.append_assoc]
    exact List.suffix_append _ _
  have hkept : (wl.removeFile file.1).directory = (wl.removeFile file.1).torn wl.out.file.length :=
    directory_eq_torn _
  obtain ⟨hitems, hcommands⟩ := h.sound.replay_torn wl.out.file.length
  obtain ⟨hitems', hcommands'⟩ := (h.removeFile file.1).sound.replay_torn wl.out.file.length
  refine ⟨fun segment hsegment hnot => ?_, ?_, ?_⟩
  · have hsame : segment = file := by
      rw [contents, hfiles] at hsegment
      rw [contents, hremoved] at hnot
      simp only [List.mem_append, List.mem_cons] at hsegment hnot
      tauto
    rw [hsame]
    refine ⟨(h.sound.number_lt hfile).ne, fun position hposition => UInt64.le_trans ?_ hle⟩
    rw [lastIndexOfSegment_eq]
    refine le_getLastD_of_pairwise (h.ascending.sublist ?_) hposition 0
    exact List.sublist_flatten_of_mem (List.mem_map_of_mem (List.mem_append_left _ hfile))
  · rw [hkept, directory_eq_torn, hitems, hitems']
    exact hsuffix
  · rw [hkept, directory_eq_torn, hcommands, hcommands']
    exact hsuffix.map _

end Forge

namespace PruneLog

/-- The log is in order, and every prune has passed over the segments before those that it has still to
examine. -/
structure Orderly (fmt : Format C) (s : PruneLog I) : Prop where
  ordered : s.wl.Ordered fmt
  jobs : ∀ caller job, s.pruning caller = some job → job.Passed fmt s.wl

variable {s next : PruneLog I}

theorem Orderly.moves (h : s.Orderly fmt) {wl : Forge} (hwl : wl.Ordered fmt ∧ s.wl.AddsFiles wl) :
    Orderly fmt ⟨wl, s.pruning⟩ :=
  ⟨hwl.1, fun caller job hjob => (h.jobs caller job hjob).addsFiles hwl.2⟩

variable [DecidableEq I]

section

variable (h : s.Orderly fmt) {caller : I} {index : UInt64}
  (hstep : s.step fmt (.pruneThrough caller index) = some next)
include h hstep

theorem step_pruneThrough :
    next = ⟨s.wl.afterSync, Function.update s.pruning caller (some ⟨index, s.wl.afterSync.candidates⟩)⟩ := by
  rw [step, Forge.sync_clear h.ordered.sound.healthy] at hstep
  exact (Option.some.inj (Option.ite_none_right_eq_some.mp hstep).2).symm

theorem Orderly.pruneThrough : next.Orderly fmt := by
  rw [step_pruneThrough h hstep]
  obtain ⟨hordered, hadds⟩ := h.ordered.afterSync
  refine ⟨hordered, fun other job hjob => ?_⟩
  dsimp only at hjob
  by_cases hcaller : other = caller
  · rw [hcaller, Function.update_self] at hjob
    cases hjob
    exact PruneJob.passed_candidates hordered.sound.toWhole rfl index
  · rw [Function.update_of_ne hcaller] at hjob
    exact (h.jobs other job hjob).addsFiles hadds

end

theorem Orderly.examine (h : s.Orderly fmt) {caller : I} {job : PruneJob} (hjob : s.pruning caller = some job) :
    (s.examined fmt caller job).Orderly fmt ∧ s.wl.RemovesCovered fmt (s.examined fmt caller job).wl job.index := by
  have hpassed := h.jobs caller job hjob
  have hupdate (wl : Forge) (later : Option PruneJob) (hordered : wl.Ordered fmt)
      (hothers : ∀ other job, s.pruning other = some job → job.Passed fmt wl)
      (hlater : ∀ job, later = some job → job.Passed fmt wl) :
      Orderly fmt ⟨wl, Function.update s.pruning caller later⟩ := by
    refine ⟨hordered, fun other job hother => ?_⟩
    dsimp only at hother
    by_cases hcaller : other = caller
    · rw [hcaller, Function.update_self] at hother
      exact hlater job hother
    · rw [Function.update_of_ne hcaller] at hother
      exact hothers other job hother
  rw [examined]
  rcases examineNext_spec h.ordered.sound.toWhole job with
    hdone | ⟨seg, rest, hcandidates, hkept, hkeeps⟩ | ⟨file, hfile, rest, hcandidates, hne, hle, hremoved⟩
  · rw [hdone]
    exact ⟨hupdate _ _ h.ordered h.jobs fun _ hnone => absurd hnone (Option.some_ne_none _).symm,
      Forge.removesCovered_refl fmt s.wl job.index⟩
  · rw [hkept]
    refine ⟨hupdate _ _ h.ordered h.jobs fun later hlater => ?_, Forge.removesCovered_refl fmt s.wl job.index⟩
    cases hlater
    exact hpassed.tail hcandidates hkeeps
  · rw [hremoved]
    refine ⟨hupdate _ _ (h.ordered.removeFile file.1) (fun other job hother => ?_)
      fun _ hnone => absurd hnone (Option.some_ne_none _).symm,
      h.ordered.removesCovered hpassed hfile hcandidates hne hle⟩
    exact (h.jobs other job hother).removeFile file.1

theorem Orderly.step (h : s.Orderly fmt) {action : PruneAction I C} (hallowed : s.InOrder fmt action)
    (hstep : s.step fmt action = some next) : next.Orderly fmt := by
  cases action with
  | call times c =>
    obtain ⟨wl, hcall, rfl⟩ := Option.map_eq_some_iff.mp hstep
    refine h.moves (h.ordered.step (fun _ _ heq => ?_) hcall)
    cases heq
    exact hallowed
  | sync | periodicSync | rotate =>
    obtain ⟨wl, hmoved, rfl⟩ := Option.map_eq_some_iff.mp hstep
    exact h.moves (h.ordered.step (fun _ _ heq => by cases heq) hmoved)
  | restart cfg manifest manifestHash time =>
    obtain ⟨wl, hopened, rfl⟩ := Option.map_eq_some_iff.mp hstep
    exact ⟨h.ordered.restart hallowed (Forge.opened_eq_some hopened),
      fun caller job hjob => absurd hjob (Option.some_ne_none _).symm⟩
  | pruneThrough caller index => exact h.pruneThrough hstep
  | examine caller =>
    obtain ⟨job, hjob, rfl⟩ := Option.map_eq_some_iff.mp hstep
    exact (h.examine hjob).1

end PruneLog

/-- In every run from an empty directory in which positions are not zero and do not go down, and new starts find
a last segment that ends with a frame: the locked part of a prune changes no segment, and what the prune then
removes has positions up to its index, is not the open segment, and is the front of what the replays give. -/
theorem prune_removes_covered [DecidableEq I] {cfg : ForgeConfig} {manifest : Manifest} {manifestHash : List UInt8}
    {time : ℤ} {start : Forge} {actions : List (PruneAction I C)} {s : PruneLog I}
    (hstart : Forge.init fmt cfg manifest manifestHash none time [] none = (start, .returnsNil))
    (hrun : Run (PruneLog.step fmt) (PruneLog.InOrder fmt) (.new start) actions s) :
    (∀ caller index next, s.step fmt (.pruneThrough caller index) = some next →
      next.wl.contents = s.wl.contents ∧ (next.pruning caller).map PruneJob.index = some index) ∧
    ∀ caller job next, s.pruning caller = some job → s.step fmt (.examine caller) = some next →
      s.wl.RemovesCovered fmt next.wl job.index ∧
        ∀ later ∈ next.pruning caller, later.index = job.index := by
  have hnew : (PruneLog.new start : PruneLog I).Orderly fmt :=
    ⟨Forge.ordered_init hstart, fun caller job hjob => absurd hjob (Option.some_ne_none _).symm⟩
  have horderly : s.Orderly fmt :=
    hrun.invariant (PruneLog.Orderly fmt) (fun _ _ _ h hallowed hstep => h.step hallowed hstep) hnew
  refine ⟨fun caller index next hstep => ?_, fun caller job next hjob hstep => ?_⟩
  · rw [PruneLog.step_pruneThrough horderly hstep]
    dsimp only
    rw [Function.update_self]
    exact ⟨Forge.contents_afterSync s.wl, rfl⟩
  · rw [PruneLog.step, hjob] at hstep
    cases hstep
    refine ⟨(horderly.examine hjob).2, fun later hlater => ?_⟩
    rw [PruneLog.examined, Option.mem_def] at hlater
    dsimp only at hlater
    rw [Function.update_self] at hlater
    exact (SharedLog.examineNext_cases fmt s.wl job).2 later hlater

def entryAt (index : UInt64) : ForgeCall ℕ := .normal ⟨index, 1, 0, some 6, [9]⟩

/-- Entries in two segments, the second of which is continued after a new start, and a prune through the first
entry. -/
def entriesInOrder : List (PruneAction Bool ℕ) :=
  [.call ⟨1, 2⟩ (entryAt 1), .rotate 3, .call ⟨4, 5⟩ (entryAt 2), .sync, .restart largeConfig mixedManifest [7] 6,
    .call ⟨7, 8⟩ (entryAt 3), .rotate 9, .pruneThrough true 1]

/-- The prune removes the segment of the first entry. -/
theorem prune_removes_covered_first :
    ∃ s next : PruneLog Bool,
      Run (PruneLog.step tallyFormat) (PruneLog.InOrder tallyFormat) (.new largeForge) entriesInOrder s ∧
      s.pruning true = some ⟨1, [0, 1]⟩ ∧ s.step tallyFormat (.examine true : PruneAction Bool ℕ) = some next ∧
      next.wl.files.map Prod.fst = [1] ∧ s.wl.RemovesCovered tallyFormat next.wl 1 := by
  obtain ⟨s, hrun, htest⟩ := exists_run_of_check (PruneLog.step tallyFormat) (PruneLog.InOrder tallyFormat)
    (.new largeForge) entriesInOrder (fun s : PruneLog Bool => decide (s.pruning true = some ⟨1, [0, 1]⟩) &&
      (s.step tallyFormat (.examine true : PruneAction Bool ℕ)).any
        fun next : PruneLog Bool => decide (next.wl.files.map Prod.fst = [1])) (by decide +kernel)
  rw [Bool.and_eq_true, Option.any_eq_true] at htest
  obtain ⟨hjob, next, hstep, hfiles⟩ := htest
  have hpruning := of_decide_eq_true hjob
  exact ⟨s, next, hrun, hpruning, hstep, of_decide_eq_true hfiles,
    ((prune_removes_covered init_largeForge hrun).2 true _ next hpruning hstep).1⟩

/-- Two commands, a new start, and a third command that gets the sequence number of the first one, in the same
segment or in the next one. -/
def commandsRenumbered (between : PruneAction Bool ℕ) : List (PruneAction Bool ℕ) :=
  [.call ⟨1, 2⟩ (.log 5), .call ⟨3, 4⟩ (.log 6), between, .restart largeConfig mixedManifest [7] 5,
    .call ⟨6, 7⟩ (.log 8), .rotate 8, .pruneThrough true 1]

/-- With all three commands in one segment, a prune through 1 removes the position 2 as well. With the third one
in the next segment, it removes that and keeps the segment before it. -/
theorem prune_drops_renumbered :
    (∃ s next : PruneLog Bool,
      Run (PruneLog.step tallyFormat) (fun _ _ => True) (.new largeForge) (commandsRenumbered .sync) s ∧
      s.pruning true = some ⟨1, [0]⟩ ∧ (s.wl.files.map fun file => positionsIn tallyFormat file.2) = [[1, 2, 1]] ∧
      s.step tallyFormat (.examine true : PruneAction Bool ℕ) = some next ∧ next.wl.files = []) ∧
    ∃ s next : PruneLog Bool,
      Run (PruneLog.step tallyFormat) (fun _ _ => True) (.new largeForge)
        (commandsRenumbered (.rotate 5) ++ [.examine true]) s ∧
      s.pruning true = some ⟨1, [1]⟩ ∧ replayCommand tallyFormat s.wl.directory = ([5, 6, 8], none) ∧
      s.step tallyFormat (.examine true : PruneAction Bool ℕ) = some next ∧
      replayCommand tallyFormat next.wl.directory = ([5, 6], none) := by
  constructor
  · obtain ⟨s, hrun, htest⟩ := exists_run_of_check (PruneLog.step tallyFormat) (fun _ _ => True) (.new largeForge)
      (commandsRenumbered .sync) (fun s : PruneLog Bool => decide (s.pruning true = some ⟨1, [0]⟩ ∧
        (s.wl.files.map fun file => positionsIn tallyFormat file.2) = [[1, 2, 1]]) &&
        (s.step tallyFormat (.examine true : PruneAction Bool ℕ)).any
          fun next : PruneLog Bool => decide (next.wl.files = [])) (by decide +kernel)
    rw [Bool.and_eq_true, Option.any_eq_true] at htest
    obtain ⟨hbefore, next, hstep, hafter⟩ := htest
    obtain ⟨hjob, hpositions⟩ := of_decide_eq_true hbefore
    exact ⟨s, next, hrun, hjob, hpositions, hstep, of_decide_eq_true hafter⟩
  · obtain ⟨s, hrun, htest⟩ := exists_run_of_check (PruneLog.step tallyFormat) (fun _ _ => True) (.new largeForge)
      (commandsRenumbered (.rotate 5) ++ [.examine true]) (fun s : PruneLog Bool =>
        decide (s.pruning true = some ⟨1, [1]⟩ ∧ replayCommand tallyFormat s.wl.directory = ([5, 6, 8], none)) &&
        (s.step tallyFormat (.examine true : PruneAction Bool ℕ)).any
          fun next : PruneLog Bool => decide (replayCommand tallyFormat next.wl.directory = ([5, 6], none)))
      (by decide +kernel)
    rw [Bool.and_eq_true, Option.any_eq_true] at htest
    obtain ⟨hbefore, next, hstep, hafter⟩ := htest
    obtain ⟨hjob, hreplay⟩ := of_decide_eq_true hbefore
    exact ⟨s, next, hrun, hjob, hreplay, hstep, of_decide_eq_true hafter⟩

end SevenDB.Wal
