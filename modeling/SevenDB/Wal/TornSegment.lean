import SevenDB.Wal.RoundTrip

/-!
# A torn tail of the last segment

A crash may leave only the beginning of the last segment. A replay gives the entries whose frames are
complete, but it returns an error unless the segment was cut off at the end of a frame, and a start
appends behind the torn bytes. After a cut at the end of a frame, what is appended and synced later is
read back behind the complete entries.
-/

namespace SevenDB.Wal

open SevenDB.Common

variable {C : Type} {fmt : Format C}

def frameItem (fmt : Format C) (f : RawFrame) : Option (ReplayItem C) :=
  match (itemReader fmt).accept f with
  | .ok item => item
  | .error _ => none

namespace Forge

/-- The directory when the last segment is cut off after a number of bytes. -/
def torn (wl : Forge) (count : ℕ) : List (ℕ × List UInt8) := wl.files ++ [(wl.csIdx, wl.out.content.take count)]

/-- How the last segment ends when it is cut off. -/
def tornEnding (wl : Forge) (count : ℕ) : Ending := cutEnding count (scan wl.out.content).1

/-- The items whose frames are complete when the last segment is cut off. -/
def completeItems (fmt : Format C) (wl : Forge) (count : ℕ) : List (ReplayItem C) :=
  (wl.files.flatMap fun segment => itemsIn fmt segment.2) ++
    ((scan wl.out.content).1.take (framesWithin count (scan wl.out.content).1)).filterMap (frameItem fmt)

end Forge

section Cutting

variable {bytes : List UInt8}

theorem filterMap_frameItem {frames : List RawFrame} {items : List (Option (ReplayItem C))}
    (h : frames.map (itemReader fmt).accept = items.map .ok) :
    frames.filterMap (frameItem fmt) = items.reduceOption := by
  have hitem : frameItem fmt = (fun read => read.toOption.join) ∘ (itemReader fmt).accept := by
    funext f
    rw [Function.comp_apply, frameItem]
    cases (itemReader fmt).accept f <;> rfl
  rw [hitem, ← List.filterMap_map, h, List.filterMap_map]
  rfl

/-- The items in the first frames of an intact segment are the first of its items. -/
theorem Intact.filterMap_take_isPrefix (h : Intact fmt bytes) (count : ℕ) :
    ((scan bytes).1.take count).filterMap (frameItem fmt) <+: itemsIn fmt bytes := by
  obtain ⟨marks, hitems, _⟩ := h
  rw [itemsIn, hitems.read_eq, ← filterMap_frameItem hitems.accepts]
  exact (List.take_prefix _ _).filterMap _

/-- Reading an intact segment that is cut off gives the items of the complete frames. -/
theorem Intact.read_take (h : Intact fmt bytes) (count : ℕ) :
    (itemReader fmt).read (bytes.take count) =
        (((scan bytes).1.take (framesWithin count (scan bytes).1)).filterMap (frameItem fmt),
          replayEnd (cutEnding count (scan bytes).1)) ∧
      (commandReader fmt).read (bytes.take count) =
        ((((scan bytes).1.take (framesWithin count (scan bytes).1)).filterMap (frameItem fmt)).map ReplayItem.cmd,
          replayEnd (cutEnding count (scan bytes).1)) := by
  obtain ⟨marks, hitems, hcommands, _⟩ := h
  have htaken (k : ℕ) : ((scan bytes).1.take k).filterMap (frameItem fmt) =
      ((marks.map Prod.fst).take k).reduceOption := by
    refine filterMap_frameItem ?_
    rw [List.map_take, hitems.accepts, List.map_take]
  rw [htaken, hitems.read_take, hcommands.read_take, ← List.reduceOption_map, List.map_take, List.map_map]
  exact ⟨rfl, rfl⟩

theorem Intact.take (h : Intact fmt bytes) {count : ℕ} (hclean : cutEnding count (scan bytes).1 = .clean) :
    Intact fmt (bytes.take count) := by
  obtain ⟨marks, hitems, hcommands, hpositions, hplaced⟩ := h
  refine ⟨marks.take (framesWithin count (scan bytes).1), ?_, ?_, ?_, fun mark hmark =>
    hplaced mark (List.mem_of_mem_take hmark)⟩
  · rw [List.map_take]
    exact hitems.take hclean
  · rw [List.map_take]
    exact hcommands.take hclean
  · rw [List.map_take]
    exact hpositions.take hclean

theorem replayEnd_eq_none_iff (ending : Ending) : replayEnd ending = none ↔ ending = .clean := by
  cases ending with
  | clean => simp [replayEnd]
  | tornHeader => simp [replayEnd]
  | tornPayload size => by_cases hlarge : frameCapacity < size <;> simp [replayEnd, hlarge]

end Cutting

namespace Forge

variable {wl : Forge}

/-- Cutting off the last segment keeps the segments numbered upwards. -/
theorem Whole.ascending_torn (h : wl.Whole fmt) (count : ℕ) : ((wl.torn count).map Prod.fst).Pairwise (· < ·) := by
  have hascending := h.ascending
  rw [contents, List.map_append] at hascending
  rw [torn, List.map_append]
  exact hascending

/-- The replays of a directory whose last segment is cut off give the complete items, and an error unless the
cut is at the end of a frame. -/
theorem Whole.replay_torn (h : wl.Whole fmt) (count : ℕ) :
    replayItems fmt (wl.torn count) = (wl.completeItems fmt count, replayEnd (wl.tornEnding count)) ∧
      replayCommand fmt (wl.torn count) =
        ((wl.completeItems fmt count).map ReplayItem.cmd, replayEnd (wl.tornEnding count)) := by
  obtain ⟨hitems, hcommands⟩ := readAll_intact fun segment hsegment =>
    h.intact segment (List.mem_append_left _ hsegment)
  obtain ⟨hlast, hlastCommands⟩ := h.intact_content.read_take count
  rw [replayItems, replayCommand, sortFiles_of_ascending (h.ascending_torn count), torn, List.map_append,
    FrameReader.readAll_append _ (by rw [hitems]), FrameReader.readAll_append _ (by rw [hcommands]), hitems,
    hcommands, List.map_singleton, FrameReader.readAll_singleton, FrameReader.readAll_singleton, hlast,
    hlastCommands, completeItems, List.map_append]
  exact ⟨rfl, rfl⟩

/-- The log as if it had written only what is left of its last segment. -/
def cut (wl : Forge) (count : ℕ) : Forge :=
  { wl with out := .openAt wl.out.capacity (wl.out.content.take count), lsn := 0, durableLSN := 0 }

/-- A log whose last segment is cut off after a frame is sound, and holds the complete items. -/
theorem Whole.cut (h : wl.Whole fmt) {count : ℕ} (hclean : wl.tornEnding count = .clean) :
    (wl.cut count).Sound fmt ∧ (wl.cut count).stored fmt = wl.completeItems fmt count := by
  have hcontent : (wl.cut count).out.content = wl.out.content.take count := List.append_nil _
  have hcontents : (wl.cut count).contents = wl.torn count := by
    rw [contents, hcontent]
    rfl
  have hintact := h.intact_content.take hclean
  refine ⟨⟨⟨rfl, fun segment hsegment => ?_, ?_⟩, Nat.le_refl _, fun _ => rfl⟩, ?_⟩
  · rw [hcontents, torn] at hsegment
    rcases List.mem_append.mp hsegment with hfile | hlast
    · exact h.intact segment (List.mem_append_left _ hfile)
    · rw [List.mem_singleton.mp hlast]
      exact hintact
  · rw [hcontents]
    exact h.ascending_torn count
  · rw [stored_eq, hcontent, completeItems, itemsIn, (h.intact_content.read_take count).1]
    rfl

theorem Whole.completeItems_isPrefix (h : wl.Whole fmt) (count : ℕ) :
    wl.completeItems fmt count <+: wl.stored fmt := by
  rw [stored_eq, completeItems, List.prefix_append_right_inj]
  exact h.intact_content.filterMap_take_isPrefix _

end Forge

/-- Both replays of a directory give some items and no error. -/
def Replays (fmt : Format C) (directory : List (ℕ × List UInt8)) (items : List (ReplayItem C)) : Prop :=
  replayItems fmt directory = (items, none) ∧ replayCommand fmt directory = (items.map ReplayItem.cmd, none)

instance [DecidableEq C] (directory : List (ℕ × List UInt8)) (items : List (ReplayItem C)) :
    Decidable (Replays fmt directory items) :=
  inferInstanceAs (Decidable (_ ∧ _))

/-- After a run from an empty directory the last segment is cut off somewhere. The items whose frames are
complete are the first of those logged. The replays give exactly these without an error, and after every start
on what is left they give these and then all that was logged and synced since, exactly when the cut is at the
end of a frame. -/
theorem replay_torn_segment_iff {cfg : ForgeConfig} {manifest : Manifest} {manifestHash : List UInt8} {time : ℤ}
    {start wl : Forge} {actions : List (ForgeAction C)}
    (hstart : Forge.init fmt cfg manifest manifestHash none time [] none = (start, .returnsNil))
    (hrun : Run (Forge.step fmt) (fun _ _ => True) start actions wl) (count : ℕ) :
    wl.completeItems fmt count <+: outputs (Forge.step fmt) (Forge.logged fmt) start actions ∧
    ((Replays fmt (wl.torn count) (wl.completeItems fmt count) ∧
      ∀ (later : ForgeConfig) (laterManifest : Manifest) (laterHash : List UInt8) (laterTime : ℤ)
        (hardState : Option (List UInt8)) (fresh reopened synced : Forge) (more : List (ForgeAction C)),
        Forge.init fmt later laterManifest laterHash none laterTime (wl.torn count) hardState =
            (fresh, .returnsNil) →
          Run (Forge.step fmt) (fun _ _ => True) fresh more reopened →
          reopened.syncNeeded .clear = (synced, .returnsNil) →
            Replays fmt synced.directory
              (wl.completeItems fmt count ++ outputs (Forge.step fmt) (Forge.logged fmt) fresh more)) ↔
      wl.tornEnding count = .clean) := by
  obtain ⟨hnew, hnone⟩ := Forge.sound_init hstart
  obtain ⟨hsound, hstored⟩ := Forge.Sound.run hrun hnew
  rw [hnone, List.nil_append] at hstored
  obtain ⟨hitems, hcommands⟩ := hsound.replay_torn count
  refine ⟨hstored ▸ hsound.completeItems_isPrefix count, fun hboth => ?_, fun hclean => ⟨?_, ?_⟩⟩
  · have hread := hboth.1.1
    rw [hitems, Prod.mk.injEq] at hread
    exact (replayEnd_eq_none_iff _).mp hread.2
  · rw [(replayEnd_eq_none_iff _).mpr hclean] at hitems hcommands
    exact ⟨hitems, hcommands⟩
  · intro later laterManifest laterHash laterTime hardState fresh reopened synced more hfresh hmore hsync
    obtain ⟨hcut, hcomplete⟩ := hsound.cut hclean
    obtain ⟨hopened, hkept, _⟩ := hcut.init rfl hfresh
    obtain ⟨hreopened, hlogged⟩ := Forge.Sound.run hmore hopened
    obtain ⟨_, hsynced, hsame, hbuf⟩ := hreopened.syncNeeded
    rw [hsync] at hsynced hsame hbuf
    rw [← hcomplete, ← hkept, ← hlogged, ← hsame]
    exact hsynced.replays hbuf

def twoCommands : List (ForgeAction ℕ) := [.call ⟨1, 2⟩ (.log 5), .call ⟨3, 4⟩ (.log 6)]

/-- A start on what is left of the last segment. -/
def reopenedAt (wl : Forge) (count : ℕ) : Forge × Reply :=
  Forge.init tallyFormat largeConfig mixedManifest [7] none 5 (wl.torn count) none

/-- The second of two frames is cut off as a whole, and a third command is logged behind the first. -/
theorem replay_torn_segment_iff_at_frame_end :
    ∃ wl reopened synced : Forge, Run (Forge.step tallyFormat) (fun _ _ => True) largeForge twoCommands wl ∧
      wl.tornEnding 78 = .clean ∧ replayCommand tallyFormat (wl.torn 78) = ([5], none) ∧
      Run (Forge.step tallyFormat) (fun _ _ => True) (reopenedAt wl 78).1 [.call ⟨6, 7⟩ (.log 7)] reopened ∧
      reopened.syncNeeded .clear = (synced, .returnsNil) ∧
      replayItems tallyFormat synced.directory =
        ([⟨0, 0, 0, 2, 5, putTally 5⟩, ⟨0, 0, 0, 7, 7, putTally 7⟩], none) := by
  obtain ⟨wl, hrun, htest⟩ := exists_run_of_check (Forge.step tallyFormat) (fun _ _ => True) largeForge twoCommands
    (fun wl : Forge => decide (wl.tornEnding 78 = .clean ∧
      wl.completeItems tallyFormat 78 = [⟨0, 0, 0, 2, 5, putTally 5⟩] ∧ (reopenedAt wl 78).2 = .returnsNil ∧
      outputs (Forge.step tallyFormat) (Forge.logged tallyFormat) (reopenedAt wl 78).1 [.call ⟨6, 7⟩ (.log 7)] =
        [⟨0, 0, 0, 7, 7, putTally 7⟩] ∧
      ∃ reopened ∈ runChecked (Forge.step tallyFormat) (fun _ _ => True) (reopenedAt wl 78).1
        [.call ⟨6, 7⟩ (.log 7)], (reopened.syncNeeded .clear).2 = .returnsNil)) (by decide +kernel)
  obtain ⟨hclean, hcomplete, hopened, hlogged, reopened, hmore, hreply⟩ := of_decide_eq_true htest
  have hagain := (runChecked_eq_some_iff _ _ _ _ _).mp hmore
  have hsync : reopened.syncNeeded .clear = ((reopened.syncNeeded .clear).1, .returnsNil) := Prod.ext rfl hreply
  obtain ⟨hread, hlater⟩ := (replay_torn_segment_iff init_largeForge hrun 78).2.mpr hclean
  obtain ⟨hitems, _⟩ := hlater largeConfig mixedManifest [7] 5 none (reopenedAt wl 78).1 reopened _ _
    (Prod.ext rfl hopened) hagain hsync
  rw [hcomplete, hlogged] at hitems
  rw [hcomplete] at hread
  exact ⟨wl, reopened, _, hrun, hclean, hread.2, hagain, hsync, hitems⟩

/-- With the header of the second frame cut off in its middle every replay fails, and a command that a new
instance logs and syncs behind it is not read back. -/
theorem torn_segment_breaks_replay :
    ∃ wl : Forge, Run (Forge.step tallyFormat) (fun _ _ => True) largeForge twoCommands wl ∧
      replayCommand tallyFormat (wl.torn 82) = ([5], some .readHeader) ∧
      (reopenedAt wl 82).2 = .returnsNil ∧
      replayCommand tallyFormat (reopenedAt wl 82).1.directory = ([5], some .readHeader) ∧
      ∃ reopened ∈ (reopenedAt wl 82).1.step tallyFormat (.call ⟨6, 7⟩ (.log 7)),
        (reopened.syncNeeded .clear).2 = .returnsNil ∧
        replayCommand tallyFormat (reopened.syncNeeded .clear).1.directory = ([5], some .crcMismatch) :=
  exists_run (by decide +kernel)

end SevenDB.Wal
