import Mathlib.Data.List.Flatten
import SevenDB.Wal.SharedLog

/-!
# A shard that has the log for itself

A shard whose adapter is the only one on the log gets back its own entries, apart from those that its
prunes have removed, and the hard state that it has appended and synced last. Its prunes remove no
entry above their index, since the indices of its entries do not go down and so the last index of a
segment is its highest. None of this holds once a second shard uses the same log.
-/

namespace SevenDB.Wal

open SevenDB.Common SevenDB.Raft

variable {C : Type} {fmt : Format C} {json : Unmarshal C}

section LastIndex

variable {bytes : List UInt8}

/-- In a list that does not go down, nothing is above the last element. -/
theorem le_getLastD_of_pairwise {indices : List UInt64} (h : indices.Pairwise (· ≤ ·)) {index : UInt64}
    (hmem : index ∈ indices) (default : UInt64) : index ≤ indices.getLastD default := by
  induction indices generalizing index default with
  | nil => cases hmem
  | cons first rest ih =>
    rw [List.pairwise_cons] at h
    rw [List.getLastD_cons]
    rcases List.mem_cons.mp hmem with rfl | hrest
    · cases rest with
      | nil => exact UInt64.le_refl _
      | cons second others =>
        exact UInt64.le_trans (h.1 second List.mem_cons_self) (ih h.2 List.mem_cons_self _)
    · exact ih h.2 hrest _

/-- The positions in frames with numbered entries are the indices of the entries. -/
theorem reduceOption_positions {marks : List (Option (ReplayItem C) × Option UInt64)}
    (hplaced : ∀ mark ∈ marks, Placed mark) (hnumbered : ∀ item ∈ (marks.map Prod.fst).reduceOption, item.index ≠ 0) :
    (marks.map Prod.snd).reduceOption = (marks.map Prod.fst).reduceOption.map ReplayItem.index := by
  induction marks with
  | nil => rfl
  | cons mark marks ih =>
    obtain ⟨place, position⟩ := mark
    have hfirst := hplaced (place, position) List.mem_cons_self
    have hrest := fun mark hmark => hplaced mark (List.mem_cons_of_mem _ hmark)
    cases place with
    | none =>
      cases (show position = none from hfirst)
      rw [List.map_cons, List.reduceOption_cons_of_none] at hnumbered
      rw [List.map_cons, List.map_cons, List.reduceOption_cons_of_none, List.reduceOption_cons_of_none]
      exact ih hrest hnumbered
    | some item =>
      rw [List.map_cons, List.reduceOption_cons_of_some] at hnumbered
      have hposition : position = some item.index := Or.resolve_left hfirst (hnumbered item List.mem_cons_self)
      rw [List.map_cons, List.map_cons, hposition, List.reduceOption_cons_of_some, List.reduceOption_cons_of_some,
        List.map_cons, ih hrest fun other hother => hnumbered other (List.mem_cons_of_mem _ hother)]

/-- The last position in a segment of numbered entries is the index of the last one. -/
theorem Intact.lastIndex_eq (h : Intact fmt bytes) (hnumbered : ∀ item ∈ itemsIn fmt bytes, item.index ≠ 0) :
    lastIndexOfSegment fmt bytes = ((itemsIn fmt bytes).map ReplayItem.index).getLastD 0 := by
  obtain ⟨marks, hitems, _, hpositions, hplaced⟩ := h
  rw [itemsIn, hitems.read_eq] at hnumbered
  rw [lastIndexOfSegment_eq, itemsIn, hitems.read_eq, hpositions.read_eq, reduceOption_positions hplaced hnumbered]

end LastIndex

namespace Forge

variable {wl next : Forge}

/-- Removing a file keeps the log sound, and what remains is in its order. -/
theorem Sound.removeFile (h : wl.Sound fmt) (seg : ℕ) :
    (wl.removeFile seg).Sound fmt ∧ ((wl.removeFile seg).stored fmt).Sublist (wl.stored fmt) := by
  have hsublist : (wl.removeFile seg).contents.Sublist wl.contents := List.filter_sublist.append_right _
  refine ⟨⟨⟨h.healthy, fun segment hsegment => h.intact segment (hsublist.subset hsegment),
    h.ascending.sublist (hsublist.map _)⟩, h.durable_le, h.flushed⟩, hsublist.flatMap _⟩

theorem Whole.eq_of_number_eq (h : wl.Whole fmt) {file other : ℕ × List UInt8} (hfile : file ∈ wl.files)
    (hother : other ∈ wl.files) (hnumber : file.1 = other.1) : file = other :=
  List.inj_on_of_nodup_map (h.ascending.imp fun hlt => hlt.ne) (List.mem_append_left _ hfile)
    (List.mem_append_left _ hother) hnumber

/-- Removing a file whose last index is not above a bound removes no entry above the bound. -/
theorem Sound.filter_removeFile (h : wl.Sound fmt) (hnumbered : ∀ item ∈ wl.stored fmt, item.index ≠ 0)
    (hascending : ((wl.stored fmt).map ReplayItem.index).Pairwise (· ≤ ·)) {file : ℕ × List UInt8}
    (hfile : file ∈ wl.files) {bound : UInt64} (hlast : lastIndexOfSegment fmt file.2 ≤ bound) :
    ((wl.removeFile file.1).stored fmt).filter (bound < ·.index) = (wl.stored fmt).filter (bound < ·.index) := by
  have hmem : file ∈ wl.contents := List.mem_append_left _ hfile
  have hsublist : (itemsIn fmt file.2).Sublist (wl.stored fmt) := List.sublist_flatten_of_mem (List.mem_map_of_mem hmem)
  have hindex (item : ReplayItem C) (hitem : item ∈ itemsIn fmt file.2) : item.index ≤ bound := by
    rw [(h.intact file hmem).lastIndex_eq fun other hother => hnumbered other (hsublist.subset hother)] at hlast
    exact UInt64.le_trans (le_getLastD_of_pairwise (hascending.sublist (hsublist.map _))
      (List.mem_map_of_mem hitem) 0) hlast
  rw [stored_eq, stored_eq, List.filter_append, List.filter_append]
  refine congrArg (· ++ _) (filter_flatMap_filter _ _ _ fun other hother hdropped item hitem => ?_)
  have hsame : other = file := h.eq_of_number_eq hother hfile (by simpa using hdropped)
  rw [hsame] at hitem
  exact decide_eq_false (UInt64.not_lt.mpr (hindex item hitem))

theorem hardState_afterSync (wl : Forge) :
    wl.afterSync.hardState = wl.latestHardState ∧ wl.afterSync.latestHardState = wl.latestHardState := by
  rw [latestHardState, latestHardState, if_pos (show wl.afterSync.pendingHS = [] from rfl)]
  exact ⟨rfl, rfl⟩

theorem hardState_rotateLog (wl : Forge) (h : wl.out.failed = false) (fmt : Format C) (time : ℤ) :
    (wl.rotateLog fmt .clear time).1.csIdx = wl.csIdx + 1 ∧
      (wl.rotateLog fmt .clear time).1.hardState = wl.latestHardState := by
  rw [Forge.rotateLog, sync_clear h]
  dsimp only
  have hsame := sameHardStates_startSegment { wl.afterSync with
    files := wl.afterSync.files ++ [(wl.afterSync.csIdx, wl.afterSync.out.file)]
    csIdx := wl.afterSync.csIdx + 1
    out := .openAt defaultBufferSize []
    csSize := 0 } fmt Faults.clear.preamble time
  exact ⟨hsame.csIdx_eq, hsame.hardState_eq.trans wl.hardState_afterSync.1⟩

/-- The hard state in its file is as before, or the segment was left and the latest one is there. -/
def PersistsOnLeaving (wl next : Forge) : Prop :=
  next.hardState = if next.csIdx = wl.csIdx then wl.hardState else wl.latestHardState

/-- Writing an element leaves the hard state in its file alone, or it leaves the segment. -/
theorem hardState_writeElement (h : wl.out.failed = false) (fmt : Format C) (times : Times) (payload : List UInt8) :
    PersistsOnLeaving wl (wl.writeElement fmt .clear times payload).1 := by
  have hrotate (entrySize : UInt32) : PersistsOnLeaving wl
      (rotateLogIfNeeded fmt { wl with lsn := wl.lsn + 1 } .clear times.preamble entrySize).1 := by
    unfold rotateLogIfNeeded
    split
    · obtain ⟨hidx, hhardState⟩ := hardState_rotateLog { wl with lsn := wl.lsn + 1 } h fmt times.preamble
      rw [PersistsOnLeaving, hhardState, if_neg]
      · rfl
      · rw [hidx]
        exact Nat.succ_ne_self _
    · exact (if_pos rfl).symm
  unfold writeElement writePayloadLocked
  dsimp only
  split
  · next middle heq =>
    have hmiddle := hrotate (UInt32.ofNat
      (8 + (fmt.element.encode ⟨UInt64.ofNat (wl.lsn + 1), times.element, .command, payload⟩).length))
    rw [heq] at hmiddle
    have hsame := sameHardStates_writeNoRotate middle fmt Faults.clear.write
      (fmt.element.encode ⟨UInt64.ofNat (wl.lsn + 1), times.element, .command, payload⟩)
    rw [PersistsOnLeaving, hsame.hardState_eq, hsame.csIdx_eq]
    exact hmiddle
  · exact hrotate _

/-- Appending an entry leaves the hard state in its file alone, or it leaves the segment. -/
theorem hardState_appendNormal (h : wl.out.failed = false) (fmt : Format C) (times : Times) (e : NormalEntry C) :
    PersistsOnLeaving wl (wl.appendNormal fmt .clear times e).1 := by
  unfold appendNormal
  split
  · exact (if_pos rfl).symm
  · split
    · exact (if_pos rfl).symm
    · exact hardState_writeElement h fmt times _

/-- A sync on request that syncs a staged hard state, if there is one, persists the latest one. -/
theorem hardState_syncNeeded (h : wl.out.failed = false)
    (hstaged : wl.lsn ≤ wl.durableLSN → wl.pendingHS = []) :
    (wl.syncNeeded .clear).1.hardState = wl.latestHardState := by
  rw [Forge.syncNeeded]
  split
  · next hle => rw [latestHardState, if_pos (hstaged hle)]
  · rw [sync_clear h]
    exact wl.hardState_afterSync.1

/-- The log holds what is left of the entries of one shard: their indices are not zero and do not go down,
and those above every index that was pruned through are all there. -/
structure HoldsOwn (fmt : Format C) (wl : Forge) (own : List LoggedEntry) (prunes : List UInt64) : Prop where
  sound : wl.Sound fmt
  numbered : ∀ item ∈ wl.stored fmt, item.index ≠ 0
  ascending : ((wl.stored fmt).map ReplayItem.index).Pairwise (· ≤ ·)
  remains : ((wl.stored fmt).map ReplayItem.entry).Sublist own
  above : ∀ bound : UInt64, (∀ index ∈ prunes, index ≤ bound) →
    ((wl.stored fmt).map ReplayItem.entry).filter (bound < ·.index) = own.filter (bound < ·.index)

section HoldsOwn

variable {own : List LoggedEntry} {prunes : List UInt64}

section

variable (h : wl.HoldsOwn fmt own prunes)
include h

theorem HoldsOwn.of_stored (hsound : next.Sound fmt)
    (hstored : next.stored fmt = wl.stored fmt) : next.HoldsOwn fmt own prunes := by
  obtain ⟨_, hnumbered, hascending, hremains, habove⟩ := h
  rw [← hstored] at hnumbered hascending hremains habove
  exact ⟨hsound, hnumbered, hascending, hremains, habove⟩

theorem HoldsOwn.prune (more : List UInt64) :
    wl.HoldsOwn fmt own (prunes ++ more) :=
  ⟨h.sound, h.numbered, h.ascending, h.remains,
    fun bound hbound => h.above bound fun index hindex => hbound index (List.mem_append_left _ hindex)⟩

theorem HoldsOwn.append (hsound : next.Sound fmt) {item : ReplayItem C}
    (hstored : next.stored fmt = wl.stored fmt ++ [item]) (hnumber : item.index ≠ 0)
    (hle : ∀ earlier ∈ wl.stored fmt, earlier.index ≤ item.index) :
    next.HoldsOwn fmt (own ++ [item.entry]) prunes := by
  refine ⟨hsound, ?_, ?_, ?_, fun bound hbound => ?_⟩
  · rw [hstored]
    intro other hother
    rcases List.mem_append.mp hother with hold | hnew
    · exact h.numbered other hold
    · rw [List.mem_singleton.mp hnew]
      exact hnumber
  · rw [hstored, List.map_append, List.pairwise_append]
    refine ⟨h.ascending, List.pairwise_singleton _ _, fun index hindex last hlast => ?_⟩
    obtain ⟨earlier, hearlier, rfl⟩ := List.mem_map.mp hindex
    rw [List.mem_singleton.mp hlast]
    exact hle earlier hearlier
  · rw [hstored, List.map_append]
    exact h.remains.append_right _
  · rw [hstored, List.map_append, List.filter_append, List.filter_append, h.above bound hbound]
    rfl

/-- A file whose last index is not above an index that was pruned through is removed. -/
theorem HoldsOwn.removeFile {file : ℕ × List UInt8} (hfile : file ∈ wl.files)
    {index : UInt64} (hindex : index ∈ prunes) (hlast : lastIndexOfSegment fmt file.2 ≤ index) :
    (wl.removeFile file.1).HoldsOwn fmt own prunes := by
  obtain ⟨hsound, hsublist⟩ := h.sound.removeFile file.1
  refine ⟨hsound, fun item hitem => h.numbered item (hsublist.subset hitem), h.ascending.sublist (hsublist.map _),
    (hsublist.map _).trans h.remains, fun bound hbound => ?_⟩
  have hkept := h.sound.filter_removeFile h.numbered h.ascending hfile (UInt64.le_trans hlast (hbound index hindex))
  rw [← h.above bound hbound, List.filter_map, List.filter_map]
  exact congrArg (List.map ReplayItem.entry) hkept

end

end HoldsOwn

end Forge

namespace SharedLog

/-- What holds while a shard is alone on the log. -/
structure Undisturbed (fmt : Format C) (shard : Shard) (s : SharedLog) (own : List LoggedEntry)
    (prunes : List UInt64) : Prop where
  entries : s.wl.HoldsOwn fmt own prunes
  job_mem : ∀ job, s.pruning shard = some job → job.index ∈ prunes
  latest : s.wl.latestHardState = s.appended shard
  persisted : s.wl.hardState = s.synced shard

variable {shard : Shard} {s next : SharedLog} {own : List LoggedEntry} {prunes : List UInt64}

theorem afterSync_eq_some {outcome : Forge × Reply} (h : s.afterSync outcome = some next)
    (hreply : ∀ e, outcome.2 ≠ .returnsError e) :
    outcome.2 = .returnsNil ∧ next = { s with wl := outcome.1, synced := s.appended } := by
  obtain ⟨wl, reply⟩ := outcome
  cases reply with
  | returnsNil =>
    cases h
    exact ⟨rfl, rfl⟩
  | returnsError e => exact absurd rfl (hreply e)
  | panics => cases h

section

variable (h : s.Undisturbed fmt shard own prunes)
include h

/-- A sync that persists the latest hard state keeps everything in place. -/
theorem Undisturbed.synced {wl : Forge} (hsound : wl.Sound fmt)
    (hstored : wl.stored fmt = s.wl.stored fmt) (hlatest : wl.latestHardState = s.wl.latestHardState)
    (hhardState : wl.hardState = s.wl.latestHardState) :
    Undisturbed fmt shard { s with wl := wl, synced := s.appended } own prunes :=
  ⟨h.entries.of_stored hsound hstored, h.job_mem, hlatest.trans h.latest, hhardState.trans h.latest⟩

theorem Undisturbed.append {times : Times} {w : WALEntry}
    (hallowed : s.Alone fmt json shard (.append shard times w))
    (hstep : s.step fmt json (.append shard times w) = some next) :
    next.Undisturbed fmt shard (own ++ s.ownEntry fmt json shard (.append shard times w)) prunes := by
  obtain ⟨_, hcall, hnumber, hle⟩ := hallowed
  obtain ⟨c, hc⟩ := Option.isSome_iff_exists.mp hcall
  obtain ⟨subSeq, cmd, rfl⟩ := forgeCall_eq_some hc
  rw [step, hc] at hstep
  obtain ⟨wl, hcontinues, rfl⟩ := Option.map_eq_some_iff.mp hstep
  obtain ⟨hsound, hstored⟩ := h.entries.sound.call hcontinues
  have hstate := (Forge.continues_eq_some hcontinues).1
  have hlatest : wl.latestHardState = s.wl.latestHardState := by
    rw [← hstate]
    exact Forge.latestHardState_call
  have hpersisted : Forge.PersistsOnLeaving s.wl wl := by
    rw [← hstate]
    exact Forge.hardState_appendNormal h.entries.sound.healthy fmt times _
  refine ⟨?_, h.job_mem, hlatest.trans h.latest, ?_⟩
  · rw [ownEntry, appendReply, hc]
    dsimp only
    rw [Forge.logged] at hstored
    by_cases hreply : (s.wl.call fmt .clear times
        (.normal ⟨w.index, w.term, subSeq, some cmd, w.appBytes⟩)).2 = .returnsNil
    · rw [if_pos hreply] at hstored
      rw [if_pos ⟨rfl, hreply⟩]
      exact h.entries.append hsound hstored hnumber hle
    · rw [if_neg hreply, List.append_nil] at hstored
      rw [if_neg fun hboth => hreply hboth.2, List.append_nil]
      exact h.entries.of_stored hsound hstored
  · dsimp only
    rw [hpersisted, h.persisted, h.latest]
    split <;> rfl

theorem Undisturbed.hardState {bytes : List UInt8}
    (hstep : s.step fmt json (.hardState shard bytes) = some next) : next.Undisturbed fmt shard own prunes := by
  obtain ⟨hsound, hstored⟩ := h.entries.sound.appendHardState bytes
  rw [step] at hstep
  split at hstep
  · next wl heq =>
    cases hstep
    rw [heq] at hsound hstored
    rw [Forge.appendHardState] at heq
    split at heq
    · cases heq
    · next hne =>
      cases heq
      refine ⟨h.entries.of_stored hsound hstored, h.job_mem, ?_, h.persisted⟩
      dsimp only
      rw [Function.update_self]
      exact if_neg hne
  · cases hstep
    exact h

theorem Undisturbed.sync (hstaged : s.wl.lsn ≤ s.wl.durableLSN → s.wl.pendingHS = [])
    (hstep : s.step fmt json (.sync shard) = some next) : next.Undisturbed fmt shard own prunes := by
  obtain ⟨hreply, hsound, hstored, _⟩ := h.entries.sound.syncNeeded
  obtain ⟨_, rfl⟩ := afterSync_eq_some hstep fun e => by rw [hreply]; exact Reply.noConfusion
  exact h.synced hsound hstored (Forge.latestHardState_syncNeeded _ _)
    (Forge.hardState_syncNeeded h.entries.sound.healthy hstaged)

theorem Undisturbed.afterSync (hstep : s.afterSync (s.wl.sync .clear) = some next) :
    next.Undisturbed fmt shard own prunes ∧ next.pruning = s.pruning := by
  rw [Forge.sync_clear h.entries.sound.healthy] at hstep
  obtain ⟨_, rfl⟩ := afterSync_eq_some hstep fun e => Reply.noConfusion
  obtain ⟨hsound, hstored⟩ := h.entries.sound.afterSync
  obtain ⟨hhardState, hlatest⟩ := s.wl.hardState_afterSync
  exact ⟨h.synced hsound hstored hlatest hhardState, rfl⟩

theorem Undisturbed.pruneThrough {index : UInt64}
    (hstep : s.step fmt json (.pruneThrough shard index) = some next) :
    next.Undisturbed fmt shard own (prunes ++ [index]) := by
  rw [step] at hstep
  split at hstep
  · obtain ⟨synced, hsynced, rfl⟩ := Option.map_eq_some_iff.mp hstep
    obtain ⟨hkept, _⟩ := h.afterSync hsynced
    refine ⟨hkept.entries.prune [index], fun job hjob => ?_, hkept.latest, hkept.persisted⟩
    dsimp only at hjob
    rw [Function.update_self] at hjob
    cases hjob
    exact List.mem_append_right _ List.mem_cons_self
  · cases hstep

end

/-- Examining a segment: nothing happens, or a file whose last index is not above that of the prune is
removed. -/
theorem examineNext_cases (fmt : Format C) (wl : Forge) (job : PruneJob) :
    ((wl.examineNext fmt job).1 = wl ∨ ∃ file ∈ wl.files, lastIndexOfSegment fmt file.2 ≤ job.index ∧
      (wl.examineNext fmt job).1 = wl.removeFile file.1) ∧
    ∀ later, (wl.examineNext fmt job).2 = some later → later.index = job.index := by
  unfold Forge.examineNext
  split
  · exact ⟨Or.inl rfl, fun later hlater => by cases hlater⟩
  · next seg rest _ =>
    split
    · exact ⟨Or.inl rfl, fun later hlater => by cases hlater; rfl⟩
    · next file hfind =>
      split
      · exact ⟨Or.inl rfl, fun later hlater => by cases hlater; rfl⟩
      · next hsafe =>
        have hnumber : file.1 = seg := by simpa using List.find?_some hfind
        refine ⟨Or.inr ⟨file, List.mem_of_find?_eq_some hfind, ?_, ?_⟩, fun later hlater => by cases hlater⟩
        · exact UInt64.not_lt.mp fun hlt => hsafe (Or.inr hlt)
        · rw [hnumber]

section

variable (h : s.Undisturbed fmt shard own prunes)
include h

theorem Undisturbed.examine
    (hstep : s.step fmt json (.examine shard) = some next) : next.Undisturbed fmt shard own prunes := by
  rw [step] at hstep
  obtain ⟨job, hjob, rfl⟩ := Option.map_eq_some_iff.mp hstep
  have hindex := h.job_mem job hjob
  obtain ⟨hfiles, hlater⟩ := examineNext_cases fmt s.wl job
  have hjobs : ∀ later, Function.update s.pruning shard (s.wl.examineNext fmt job).2 shard = some later →
      later.index ∈ prunes := by
    intro later hsome
    rw [Function.update_self] at hsome
    rw [hlater later hsome]
    exact hindex
  have hwl : (s.wl.examineNext fmt job).1.HoldsOwn fmt own prunes ∧
      (s.wl.examineNext fmt job).1.latestHardState = s.wl.latestHardState ∧
      (s.wl.examineNext fmt job).1.hardState = s.wl.hardState := by
    rcases hfiles with hsame | ⟨file, hfile, hlast, hremoved⟩
    · rw [hsame]
      exact ⟨h.entries, rfl, rfl⟩
    · rw [hremoved]
      exact ⟨h.entries.removeFile hfile hindex hlast, rfl, rfl⟩
  exact ⟨hwl.1, hjobs, hwl.2.1.trans h.latest, hwl.2.2.trans h.persisted⟩

theorem Undisturbed.rotate {time : ℤ}
    (hstep : s.step fmt json (.rotate time) = some next) : next.Undisturbed fmt shard own prunes := by
  obtain ⟨hreply, rfl⟩ := afterSync_eq_some hstep (Forge.reply_rotateLog h.entries.sound time)
  obtain ⟨hsound, hstored, _⟩ := h.entries.sound.rotateLog (Prod.ext rfl hreply)
  exact h.synced hsound hstored (Forge.latestHardState_rotateLog _ _ _)
    (Forge.hardState_rotateLog s.wl h.entries.sound.healthy fmt time).2

theorem Undisturbed.step {action : SharedAction}
    (hallowed : s.Alone fmt json shard action) (hstep : s.step fmt json action = some next) :
    next.Undisturbed fmt shard (own ++ s.ownEntry fmt json shard action) (prunes ++ s.prunedThrough action) := by
  cases action with
  | append caller times w =>
    have hcaller := hallowed.1
    subst hcaller
    rw [prunedThrough, List.append_nil]
    exact h.append hallowed hstep
  | hardState caller bytes =>
    cases hallowed
    rw [ownEntry, prunedThrough, List.append_nil, List.append_nil]
    exact h.hardState hstep
  | sync caller =>
    obtain ⟨rfl, hstaged⟩ := hallowed
    rw [ownEntry, prunedThrough, List.append_nil, List.append_nil]
    exact h.sync hstaged hstep
  | pruneThrough caller index =>
    cases hallowed
    rw [ownEntry, List.append_nil]
    exact h.pruneThrough hstep
  | examine caller =>
    cases hallowed
    rw [ownEntry, prunedThrough, List.append_nil, List.append_nil]
    exact h.examine hstep
  | periodicSync =>
    rw [ownEntry, prunedThrough, List.append_nil, List.append_nil]
    exact (h.afterSync hstep).1
  | rotate time =>
    rw [ownEntry, prunedThrough, List.append_nil, List.append_nil]
    exact h.rotate hstep

end

theorem Undisturbed.run {actions : List SharedAction}
    (hrun : Run (SharedLog.step fmt json) (Alone fmt json shard) s actions next)
    (h : s.Undisturbed fmt shard own prunes) :
    next.Undisturbed fmt shard (own ++ outputs (SharedLog.step fmt json) (ownEntry fmt json shard) s actions)
      (prunes ++ outputs (SharedLog.step fmt json) prunedThrough s actions) := by
  induction hrun generalizing own prunes with
  | nil =>
    rw [outputs, outputs, List.append_nil, List.append_nil]
    exact h
  | cons hallowed hstep _ ih =>
    rw [outputs_cons _ _ hstep, outputs_cons _ _ hstep, ← List.append_assoc, ← List.append_assoc]
    exact ih (h.step hallowed hstep)

end SharedLog

/-- In every run in which only one shard calls the log: its replay after a sync gives its own entries in
their order, where only entries up to an index that it has pruned through are missing; the hard state
that is replayed is the last one that it has appended and synced; and no prune removes an entry above
its index. -/
theorem lone_shard_replays_own {cfg : ForgeConfig} {manifest : Manifest} {manifestHash : List UInt8} {time : ℤ}
    {start : Forge} {shard : Shard} {actions : List SharedAction} {s : SharedLog}
    (hstart : Forge.init fmt cfg manifest manifestHash none time [] none = (start, .returnsNil))
    (hrun : Run (SharedLog.step fmt json) (SharedLog.Alone fmt json shard) (.new start) actions s) :
    (∀ synced, s.wl.syncNeeded .clear = (synced, .returnsNil) →
      ∃ replayed, shardReplay fmt synced.directory = (replayed, none) ∧
        replayed.Sublist (outputs (SharedLog.step fmt json) (SharedLog.ownEntry fmt json shard) (.new start) actions) ∧
        ∀ bound : UInt64,
          (∀ index ∈ outputs (SharedLog.step fmt json) SharedLog.prunedThrough (.new start) actions,
            index ≤ bound) →
          replayed.filter (bound < ·.index) =
            (outputs (SharedLog.step fmt json) (SharedLog.ownEntry fmt json shard) (.new start) actions).filter
              (bound < ·.index)) ∧
    s.wl.replayLastHardState = s.synced shard ∧
    ∀ job next, s.pruning shard = some job → s.step fmt json (.examine shard) = some next →
      (next.wl.stored fmt).filter (job.index < ·.index) = (s.wl.stored fmt).filter (job.index < ·.index) := by
  obtain ⟨hsound, hnone⟩ := Forge.sound_init hstart
  obtain ⟨hpending, hfile⟩ := Forge.hardState_init hstart
  have hnew : (SharedLog.new start).Undisturbed fmt shard [] [] := by
    refine ⟨⟨hsound, ?_, ?_, ?_, ?_⟩, fun job hjob => ?_, ?_, hfile⟩
    · rw [SharedLog.new, hnone]
      exact fun item hitem => absurd hitem List.not_mem_nil
    · rw [SharedLog.new, hnone]
      exact .nil
    · rw [SharedLog.new, hnone]
      exact .slnil
    · rw [SharedLog.new, hnone]
      exact fun _ _ => rfl
    · cases hjob
    · exact Forge.latestHardState_init hstart
  have hend := SharedLog.Undisturbed.run hrun hnew
  rw [List.nil_append, List.nil_append] at hend
  refine ⟨fun synced hsync => ?_, hend.persisted, fun job next hjob hstep => ?_⟩
  · obtain ⟨_, hsynced, hsame, hbuf⟩ := hend.entries.sound.syncNeeded
    rw [hsync] at hsynced hsame hbuf
    refine ⟨(s.wl.stored fmt).map ReplayItem.entry, ?_, hend.entries.remains, hend.entries.above⟩
    rw [shardReplay, (hsynced.replays hbuf).1, ← hsame]
  · rw [SharedLog.step, hjob] at hstep
    cases hstep
    rcases (SharedLog.examineNext_cases fmt s.wl job).1 with hsame | ⟨file, hfile, hlast, hremoved⟩
    · dsimp only
      rw [hsame]
    · dsimp only
      rw [hremoved]
      exact hend.entries.sound.filter_removeFile hend.entries.numbered hend.entries.ascending hfile hlast

def plainEntry (index : UInt64) : WALEntry := ⟨index, 1, [9], ⟨"b", 1001, 0⟩⟩

/-- A shard appends two entries in segments of their own and a hard state, and prunes through the first
entry. -/
def loneActions : List SharedAction :=
  [.append .first ⟨1, 2⟩ (plainEntry 1), .hardState .first [1], .append .first ⟨3, 4⟩ (plainEntry 2),
    .pruneThrough .first 1, .examine .first, .examine .first]

/-- The second entry and the hard state are found after the prune. -/
theorem lone_shard_replays_own_pruned :
    ∃ (s : SharedLog) (synced : Forge) (replayed : List LoggedEntry),
      Run (SharedLog.step tallyFormat plainUnmarshal) (SharedLog.Alone tallyFormat plainUnmarshal .first)
        (.new smallForge) loneActions s ∧
      s.wl.files.length = 1 ∧ s.wl.syncNeeded .clear = (synced, .returnsNil) ∧
      shardReplay tallyFormat synced.directory = (replayed, none) ∧
      replayed.filter (1 < ·.index) = [⟨2, 1, [9]⟩] ∧ s.wl.replayLastHardState = some [1] := by
  obtain ⟨s, hrun, htest⟩ := exists_run_of_check (SharedLog.step tallyFormat plainUnmarshal)
    (SharedLog.Alone tallyFormat plainUnmarshal .first) (.new smallForge) loneActions
    (fun s => decide (s.wl.files.length = 1 ∧ (s.wl.syncNeeded .clear).2 = .returnsNil ∧
      s.synced .first = some [1])) (by decide +kernel)
  obtain ⟨hfiles, hreply, hsynced⟩ := of_decide_eq_true htest
  obtain ⟨hreplay, hlast, _⟩ := lone_shard_replays_own init_smallForge hrun
  obtain ⟨replayed, heq, _, habove⟩ := hreplay _ (Prod.ext rfl hreply)
  have hpruned : outputs (SharedLog.step tallyFormat plainUnmarshal) SharedLog.prunedThrough (.new smallForge)
      loneActions = [1] := by decide +kernel
  rw [hpruned] at habove
  refine ⟨s, _, replayed, hrun, hfiles, Prod.ext rfl hreply, heq, ?_, hlast.trans hsynced⟩
  exact (habove 1 (List.forall_mem_singleton.mpr (UInt64.le_refl 1))).trans (by decide +kernel)

/-- Two shards append an entry and a hard state each, and one of them prunes. -/
def sharedActions : List SharedAction :=
  [.append .second ⟨1, 2⟩ (plainEntry 1), .append .first ⟨3, 4⟩ (plainEntry 5), .hardState .first [1],
    .hardState .second [2], .pruneThrough .first 5, .examine .first, .examine .first]

/-- The prune of the first shard removes the entry of the second one, which then replays the entry of the
first; and the first shard replays the hard state of the second. -/
theorem shared_log_mixes_shards :
    outputs (SharedLog.step tallyFormat plainUnmarshal) (SharedLog.ownEntry tallyFormat plainUnmarshal .second)
      (.new smallForge) sharedActions = [⟨1, 1, [9]⟩] ∧
    ∃ s : SharedLog,
      Run (SharedLog.step tallyFormat plainUnmarshal) (fun _ _ => True) (.new smallForge) sharedActions s ∧
      shardReplay tallyFormat s.wl.directory = ([⟨5, 1, [9]⟩], none) ∧
      s.synced .first = some [1] ∧ s.wl.replayLastHardState = some [2] :=
  ⟨by decide +kernel, exists_run (by decide +kernel)⟩

end SevenDB.Wal
