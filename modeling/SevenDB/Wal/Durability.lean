import Mathlib.Order.MinMax
import SevenDB.Wal.RoundTrip

/-!
# What of the log survives a crash

File operations may fail, and the process may end at any of them. What survives is the part of a
segment that was synced, together with the hard state file, before or after it was last replaced. A
hard state that only reaches as far as the entries in the segments when it is persisted keeps doing
so, since a sync writes the segment first.
-/

namespace SevenDB.Wal

open SevenDB.Common

variable {C : Type} {fmt : Format C}

section HighestIndex

variable {items others : List (ReplayItem C)}

/-- The highest index of some items, zero if there is none. -/
def highestIndex (items : List (ReplayItem C)) : ℕ := (items.map fun item => item.index.toNat).foldr max 0

theorem le_highestIndex_iff {n : ℕ} :
    n ≤ highestIndex items ↔ n = 0 ∨ ∃ item ∈ items, n ≤ item.index.toNat := by
  induction items with
  | nil => simp [highestIndex]
  | cons item items ih =>
    have hcons : highestIndex (item :: items) = max item.index.toNat (highestIndex items) := rfl
    rw [hcons, le_max_iff, ih, List.exists_mem_cons_iff]
    exact or_left_comm

theorem highestIndex_mono (h : items ⊆ others) : highestIndex items ≤ highestIndex others := by
  rcases le_highestIndex_iff.mp (Nat.le_refl (highestIndex items)) with hzero | ⟨item, hitem, hle⟩
  · exact hzero.trans_le (Nat.zero_le _)
  · exact le_highestIndex_iff.mpr (Or.inr ⟨item, h hitem, hle⟩)

end HighestIndex

/-- The payload of the element that a call writes. -/
def ForgeCall.payload? (fmt : Format C) : ForgeCall C → Option (List UInt8)
  | .log c => some (fmt.command.encode c)
  | .normal e =>
    e.cmd.map fun c => encodeUWAL ⟨uwalKindNormal, e.index, e.term, e.subSeq, fmt.command.encode c, e.raftData⟩
  | .hardState _ => none

namespace Forge

/-- The items that survive a crash. -/
def survivors (fmt : Format C) (wl : Forge) : List (ReplayItem C) :=
  wl.durable.flatMap fun segment => itemsIn fmt segment.2

/-- Segments as far as they are synced are intact, what was written since then consists of whole frames
unless a write has failed, and the hard state files reach no further than the items that survive. -/
structure Kept (fmt : Format C) (commitOf : List UInt8 → ℕ) (wl : Forge) : Prop where
  synced_le : wl.out.synced ≤ wl.out.file.length
  intact : Intact fmt wl.out.durable
  grown : wl.out.failed = false → ∃ more, Intact fmt more ∧ wl.out.content = wl.out.durable ++ more
  reached : ∀ hardState, wl.hardState = some hardState ∨ wl.durableHS = some hardState →
    commitOf hardState ≤ highestIndex (wl.survivors fmt)

/-- The staged hard state reaches no further than the items in the segments and in the buffer. -/
def Covered (fmt : Format C) (commitOf : List UInt8 → ℕ) (wl : Forge) : Prop :=
  wl.pendingHS ≠ [] → commitOf wl.pendingHS ≤ highestIndex (wl.stored fmt)

/-- Only the open segment was written to, with whole frames unless a write has failed. -/
structure Grew (fmt : Format C) (wl next : Forge) : Prop where
  files_eq : next.files = wl.files
  hardState_eq : next.hardState = wl.hardState
  durableHS_eq : next.durableHS = wl.durableHS
  later : wl.out.Extends next.out
  added : next.out.failed = false →
    wl.out.failed = false ∧ ∃ more, Intact fmt more ∧ next.out.content = wl.out.content ++ more

variable {commitOf : List UInt8 → ℕ} {wl next : Forge}

/-- The items that survive are those of the closed segments and of the synced part of the open one. -/
theorem survivors_eq (fmt : Format C) (wl : Forge) :
    wl.survivors fmt = (wl.files.flatMap fun segment => itemsIn fmt segment.2) ++ itemsIn fmt wl.out.durable := by
  rw [survivors, durable, List.flatMap_append, List.flatMap_singleton]

theorem Kept.grew (h : wl.Kept fmt commitOf) (hgrew : Grew fmt wl next) : next.Kept fmt commitOf := by
  have hdurable := hgrew.later.durable_eq h.synced_le
  have hsurvivors : next.survivors fmt = wl.survivors fmt := by
    rw [survivors_eq, survivors_eq, hgrew.files_eq, hdurable]
  refine ⟨hgrew.later.synced_le h.synced_le, ?_, fun hhealthy => ?_, fun hardState hfile => ?_⟩
  · rw [hdurable]
    exact h.intact
  · obtain ⟨hbefore, added, hadded, hcontent⟩ := hgrew.added hhealthy
    obtain ⟨more, hmore, hold⟩ := h.grown hbefore
    refine ⟨more ++ added, (hmore.append hadded).1, ?_⟩
    rw [hcontent, hold, hdurable, List.append_assoc]
  · rw [hgrew.hardState_eq, hgrew.durableHS_eq] at hfile
    rw [hsurvivors]
    exact h.reached hardState hfile

section Writing

variable (wl)

theorem Grew.trans {wl middle next : Forge} (h : Grew fmt wl middle) (hnext : Grew fmt middle next) :
    Grew fmt wl next where
  files_eq := hnext.files_eq.trans h.files_eq
  hardState_eq := hnext.hardState_eq.trans h.hardState_eq
  durableHS_eq := hnext.durableHS_eq.trans h.durableHS_eq
  later := by
    obtain ⟨sent, hsent⟩ := h.later.grown
    obtain ⟨more, hmore⟩ := hnext.later.grown
    exact ⟨hnext.later.synced_eq.trans h.later.synced_eq, sent ++ more, by rw [hmore, hsent, List.append_assoc]⟩
  added hhealthy := by
    obtain ⟨hmiddle, more, hmore, hcontent⟩ := hnext.added hhealthy
    obtain ⟨hbefore, first, hfirst, hcontent'⟩ := h.added hmiddle
    exact ⟨hbefore, first ++ more, (hfirst.append hmore).1, by rw [hcontent, hcontent', List.append_assoc]⟩

theorem grew_of_same {wl next : Forge} (hfiles : next.files = wl.files)
    (hhardState : next.hardState = wl.hardState) (hdurableHS : next.durableHS = wl.durableHS)
    (hout : next.out = wl.out) : Grew fmt wl next where
  files_eq := hfiles
  hardState_eq := hhardState
  durableHS_eq := hdurableHS
  later := by
    rw [hout]
    exact .refl _
  added hhealthy := by
    rw [hout] at hhealthy
    exact ⟨hhealthy, [], intact_nil, by rw [hout, List.append_nil]⟩

theorem grew_flush (limit : Option ℕ) : Grew fmt wl { wl with out := wl.out.flush limit } where
  files_eq := rfl
  hardState_eq := rfl
  durableHS_eq := rfl
  later := BufferedFile.extends_flush
  added hhealthy := by
    obtain ⟨hbefore, hflush⟩ := BufferedFile.flush_of_healthy hhealthy
    refine ⟨hbefore, [], intact_nil, ?_⟩
    rw [hflush]
    rfl

theorem grew_writeNoRotate (limit : Option ℕ) {el : Element}
    (hread : 8 + (fmt.element.encode el).length ≤ frameCapacity → ∃ place, ReadAs fmt el place) :
    Grew fmt wl (wl.writePayloadLockedNoRotate fmt limit (fmt.element.encode el)).1 := by
  unfold writePayloadLockedNoRotate
  split
  · exact grew_of_same rfl rfl rfl rfl
  · next hfits =>
    have hle := Nat.not_lt.mp hfits
    refine ⟨rfl, rfl, rfl, BufferedFile.extends_write, fun hhealthy => ?_⟩
    obtain ⟨hbefore, hcontent⟩ := BufferedFile.write_of_healthy hhealthy
    obtain ⟨place, hplace⟩ := hread hle
    exact ⟨hbefore, _, (intact_frame hle hplace).1, hcontent⟩

theorem grew_startSegment (limit : Option ℕ) (time : ℤ) : Grew fmt wl (wl.startSegment fmt limit time).1 := by
  refine startSegment_induction fmt (grew_of_same rfl rfl rfl rfl) ?_ fun _ h => h.trans (grew_flush _ _)
  exact grew_writeNoRotate wl limit fun hfits => ⟨none, read_manifest_element rfl rfl hfits⟩

end Writing

section Syncing

section

variable (h : wl.Kept fmt commitOf)
include h

/-- Syncing a segment whose buffer was flushed makes all that is stored survive. -/
theorem Kept.fsync (hhealthy : wl.out.failed = false) (hbuf : wl.out.buf = []) :
    Kept fmt commitOf { wl with out := wl.out.fsync } ∧
      survivors fmt { wl with out := wl.out.fsync } = wl.stored fmt := by
  have hcontent : wl.out.content = wl.out.file := by rw [BufferedFile.content, hbuf, List.append_nil]
  have hdurable : wl.out.fsync.durable = wl.out.content := by
    rw [hcontent]
    exact List.take_length
  obtain ⟨more, hmore, hgrown⟩ := h.grown hhealthy
  obtain ⟨hintact, hitems⟩ := h.intact.append hmore
  have hsurvivors : survivors fmt { wl with out := wl.out.fsync } = wl.stored fmt := by
    rw [survivors_eq, stored_eq, hdurable]
  refine ⟨⟨Nat.le_refl _, ?_, fun _ => ⟨[], intact_nil, ?_⟩, fun hardState hfile => ?_⟩, hsurvivors⟩
  · rw [hdurable, hgrown]
    exact hintact
  · rw [hdurable]
    exact (List.append_nil _).symm
  · refine (h.reached hardState hfile).trans (highestIndex_mono ?_)
    rw [hsurvivors, stored_eq, survivors_eq, hgrown, hitems, ← List.append_assoc]
    exact List.subset_append_left _ _

/-- Persisting a hard state that reaches no further than what survives. -/
theorem Kept.syncHardState
    (hcovered : wl.pendingHS ≠ [] → commitOf wl.pendingHS ≤ highestIndex (wl.survivors fmt))
    (fault : Option HardStateFault) :
    (wl.syncHardState fault).1.Kept fmt commitOf ∧ (wl.syncHardState fault).1.out = wl.out ∧
      (wl.syncHardState fault).1.files = wl.files := by
  unfold Forge.syncHardState
  split
  · exact ⟨h, rfl, rfl⟩
  · next hstaged =>
    have hnew := hcovered hstaged
    cases fault with
    | some fault =>
      cases fault with
      | beforeRename => exact ⟨h, rfl, rfl⟩
      | afterRename =>
        refine ⟨⟨h.synced_le, h.intact, h.grown, fun hardState hfile => ?_⟩, rfl, rfl⟩
        rcases hfile with hrenamed | hold
        · cases hrenamed
          exact hnew
        · exact h.reached hardState (Or.inr hold)
    | none =>
      refine ⟨⟨h.synced_le, h.intact, h.grown, fun hardState hfile => ?_⟩, rfl, rfl⟩
      rcases hfile with hrenamed | hrenamed
      · cases hrenamed
        exact hnew
      · cases hrenamed
        exact hnew

/-- A sync of a log whose staged hard state is covered, wherever it fails. When it succeeds, the whole
file survives. -/
theorem Kept.sync (hcovered : wl.Covered fmt commitOf) (faults : Faults) :
    (wl.sync faults).1.Kept fmt commitOf ∧
      ((wl.sync faults).2 = .returnsNil → (wl.sync faults).1.out.durable = (wl.sync faults).1.out.file) := by
  have hflushed := h.grew (grew_flush wl faults.flush)
  unfold Forge.sync
  dsimp only
  split
  · exact ⟨hflushed, Reply.noConfusion⟩
  · next hhealthy =>
    split
    · exact ⟨hflushed, Reply.noConfusion⟩
    · obtain ⟨_, hflush⟩ := BufferedFile.flush_of_healthy (eq_false_of_ne_true hhealthy)
      obtain ⟨hsynced, hsurvivors⟩ := hflushed.fsync (eq_false_of_ne_true hhealthy) (by rw [hflush])
      have hcontent : (wl.out.flush faults.flush).content = wl.out.content := by
        rw [hflush]
        exact List.append_nil _
      have hstored : stored fmt { wl with out := wl.out.flush faults.flush } = wl.stored fmt := by
        rw [stored_eq, stored_eq, hcontent]
      obtain ⟨hkept, hout, _⟩ := hsynced.syncHardState
        (by rw [hsurvivors, hstored]; exact hcovered) faults.hardState
      refine ⟨hkept, fun _ => ?_⟩
      rw [hout]
      exact List.take_length

theorem Kept.syncNeeded (faults : Faults)
    (hcovered : wl.durableLSN < wl.lsn → wl.Covered fmt commitOf) :
    (wl.syncNeeded faults).1.Kept fmt commitOf := by
  unfold Forge.syncNeeded
  split
  · exact h
  · next hlt =>
    have hsync := (h.sync (hcovered (Nat.not_le.mp hlt)) faults).1
    split
    · next heq =>
      rw [heq] at hsync
      exact hsync.grew (grew_of_same rfl rfl rfl rfl)
    · exact hsync

theorem Kept.rotateLog (hcovered : wl.Covered fmt commitOf) (faults : Faults)
    (time : ℤ) : (wl.rotateLog fmt faults time).1.Kept fmt commitOf := by
  obtain ⟨hkept, hwhole⟩ := h.sync hcovered faults
  unfold Forge.rotateLog
  split
  · next synced heq =>
    rw [heq] at hkept hwhole
    have hopened : Kept fmt commitOf { synced with
        files := synced.files ++ [(synced.csIdx, synced.out.file)]
        csIdx := synced.csIdx + 1
        out := .openAt defaultBufferSize []
        csSize := 0 } := by
      refine ⟨Nat.le_refl _, intact_nil, fun _ => ⟨[], intact_nil, rfl⟩, fun hardState hfile => ?_⟩
      refine (hkept.reached hardState hfile).trans (highestIndex_mono ?_)
      rw [survivors_eq, survivors_eq, List.flatMap_append, List.flatMap_singleton, hwhole rfl]
      exact List.subset_append_left _ _
    exact hopened.grew (grew_startSegment _ _ _)
  · exact hkept

end

end Syncing

/-- Writing the next element leaves the open segment. -/
def Leaves (fmt : Format C) (wl : Forge) (times : Times) (payload : List UInt8) : Prop :=
  wl.maxSegmentSizeBytes < wl.csSize + UInt32.ofNat
    (8 + (fmt.element.encode ⟨UInt64.ofNat (wl.lsn + 1), times.element, .command, payload⟩).length)

instance (wl : Forge) (times : Times) (payload : List UInt8) : Decidable (wl.Leaves fmt times payload) :=
  inferInstanceAs (Decidable (_ < _))

/-- Writing an element that the readers agree on, to the next segment if need be. -/
theorem Kept.writeElement (h : wl.Kept fmt commitOf) (faults : Faults) (times : Times) {payload : List UInt8}
    (hcovered : wl.Leaves fmt times payload → wl.Covered fmt commitOf)
    (hread : ∀ lsn : UInt64,
      8 + (fmt.element.encode ⟨lsn, times.element, .command, payload⟩).length ≤ frameCapacity →
        ∃ place, ReadAs fmt ⟨lsn, times.element, .command, payload⟩ place) :
    (wl.writeElement fmt faults times payload).1.Kept fmt commitOf := by
  have hcounted : Kept fmt commitOf { wl with lsn := wl.lsn + 1 } := h.grew (grew_of_same rfl rfl rfl rfl)
  have hrotated : (rotateLogIfNeeded fmt { wl with lsn := wl.lsn + 1 } faults times.preamble (UInt32.ofNat
      (8 + (fmt.element.encode ⟨UInt64.ofNat (wl.lsn + 1), times.element, .command, payload⟩).length))).1.Kept
        fmt commitOf := by
    unfold rotateLogIfNeeded
    split
    · next hleaves => exact hcounted.rotateLog (hcovered hleaves) faults times.preamble
    · exact hcounted
  unfold Forge.writeElement writePayloadLocked
  dsimp only
  split
  · next heq =>
    rw [heq] at hrotated
    exact hrotated.grew (grew_writeNoRotate _ _ (hread _))
  · exact hrotated

/-- A call leaves the open segment. -/
def CallLeaves (fmt : Format C) (wl : Forge) (times : Times) (c : ForgeCall C) : Prop :=
  ∃ payload ∈ c.payload? fmt, wl.Leaves fmt times payload

theorem Kept.call (h : wl.Kept fmt commitOf) (faults : Faults) (times : Times) {c : ForgeCall C}
    (hcovered : wl.CallLeaves fmt times c → wl.Covered fmt commitOf) :
    (wl.call fmt faults times c).1.Kept fmt commitOf := by
  cases c with
  | log c =>
    exact h.writeElement faults times (fun hleaves => hcovered ⟨_, rfl, hleaves⟩)
      fun _ _ => ⟨_, read_command_element rfl rfl⟩
  | normal e =>
    rw [Forge.call, Forge.appendNormal]
    split
    · exact h
    · split
      · exact h
      · next c hcmd =>
        refine h.writeElement faults times (fun hleaves => hcovered ⟨_, ?_, hleaves⟩)
          fun _ hfits => ⟨_, read_normal_element rfl rfl hfits⟩
        rw [ForgeCall.payload?, hcmd]
        rfl
  | hardState bytes =>
    rw [Forge.call, Forge.appendHardState]
    split
    · exact h
    · exact h.grew (grew_of_same rfl rfl rfl rfl)

theorem kept_init {cfg : ForgeConfig} {manifest : Manifest} {manifestHash : List UInt8} {limit : Option ℕ}
    {time : ℤ} : (Forge.init fmt cfg manifest manifestHash limit time [] none).1.Kept fmt commitOf := by
  have hempty (size : UInt32) : Forge.Kept fmt commitOf ⟨cfg.maxSegmentSizeBytes, [], 0, .openAt cfg.bufferSize [],
      size, 0, 0, [], none, none, manifest, manifestHash, false⟩ := by
    refine ⟨Nat.le_refl _, intact_nil, fun _ => ⟨[], intact_nil, rfl⟩, fun hardState hfile => ?_⟩
    rcases hfile with hnone | hnone <;> cases hnone
  exact (hempty 0).grew (grew_startSegment _ _ _)

end Forge

end SevenDB.Wal
