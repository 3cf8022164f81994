import SevenDB.Wal.SegmentElements
import SevenDB.Wal.ShardIsolation
import SevenDB.Wal.TornSegment

/-!
# What pruning the log removes

A prune syncs and lists the segments below the open one under the lock, and then examines one after
another without it, until it has removed one. Several callers prune while entries are appended,
segments are left and the process starts again on the files that it finds. A segment is judged by its
last position only. As long as positions are not zero and do not go down, a prune removes only
segments with positions up to its index, and it removes them from the front.
-/

namespace SevenDB.Wal

open SevenDB.Common

variable {I C : Type} {fmt : Format C}

/-- The positions of the entries in a segment. -/
def positionsIn (fmt : Format C) (bytes : List UInt8) : List UInt64 := ((positionReader fmt).read bytes).1

/-- The log with the prunes of its callers. -/
structure PruneLog (I : Type) where
  wl : Forge
  pruning : I → Option PruneJob

/-- What happens to the log: calls, syncs, rotations by time, a new start on the files that are found, the
locked part of a prune, and the next segment that a prune examines. -/
inductive PruneAction (I C : Type)
  | call (times : Times) (c : ForgeCall C)
  | sync
  | periodicSync
  | rotate (time : ℤ)
  | restart (cfg : ForgeConfig) (manifest : Manifest) (manifestHash : List UInt8) (time : ℤ)
  | pruneThrough (caller : I) (index : UInt64)
  | examine (caller : I)

namespace Forge

/-- The positions of the entries in the log. -/
def positions (fmt : Format C) (wl : Forge) : List UInt64 :=
  wl.contents.flatMap fun segment => positionsIn fmt segment.2

/-- The position that the entry of a call gets: the sequence number of a command, the index of a normal entry.
A call that is refused gets none. -/
def positionFor (wl : Forge) : ForgeCall C → Option UInt64
  | .log _ => some (UInt64.ofNat (wl.lsn + 1))
  | .normal e =>
    if wl.manifest.enforce = .strict ∧ wl.manifest.isUWAL1 = false then none else e.cmd.map fun _ => e.index
  | .hardState _ => none

/-- The position of a call's entry is not zero and not below those in the log. -/
def InOrder (fmt : Format C) (wl : Forge) (c : ForgeCall C) : Prop :=
  ∀ position ∈ wl.positionFor c, position ≠ 0 ∧ ∀ earlier ∈ wl.positions fmt, earlier ≤ position

end Forge

namespace PruneLog

/-- The log before any prune. -/
def new (wl : Forge) : PruneLog I := ⟨wl, fun _ => none⟩

/-- The next segment that a prune examines. -/
def examined [DecidableEq I] (fmt : Format C) (s : PruneLog I) (caller : I) (job : PruneJob) : PruneLog I :=
  ⟨(s.wl.examineNext fmt job).1, Function.update s.pruning caller (s.wl.examineNext fmt job).2⟩

/-- One step in which no file operation fails. A new start ends the prunes. -/
def step [DecidableEq I] (fmt : Format C) (s : PruneLog I) : PruneAction I C → Option (PruneLog I)
  | .call times c => (s.wl.step fmt (.call times c)).map fun wl => ⟨wl, s.pruning⟩
  | .sync => (s.wl.step fmt .sync).map fun wl => ⟨wl, s.pruning⟩
  | .periodicSync => (s.wl.step fmt .periodicSync).map fun wl => ⟨wl, s.pruning⟩
  | .rotate time => (s.wl.step fmt (.rotate time)).map fun wl => ⟨wl, s.pruning⟩
  | .restart cfg manifest manifestHash time =>
    (Forge.Opened (Forge.init fmt cfg manifest manifestHash none time s.wl.directory s.wl.hardState)).map new
  | .pruneThrough caller index =>
    if s.pruning caller = none then
      (Forge.Opened (s.wl.sync .clear)).map fun wl =>
        ⟨wl, Function.update s.pruning caller (some ⟨index, wl.candidates⟩)⟩
    else none
  | .examine caller => (s.pruning caller).map (s.examined fmt caller)

/-- The position of an entry is not zero and not below those in the log, and a new start finds a last segment
that ends with a frame. -/
def InOrder (fmt : Format C) (s : PruneLog I) : PruneAction I C → Prop
  | .call _ c => s.wl.InOrder fmt c
  | .restart _ _ _ _ => s.wl.tornEnding s.wl.out.file.length = .clean
  | .sync | .periodicSync | .rotate _ | .pruneThrough _ _ | .examine _ => True

instance (s : PruneLog I) : (action : PruneAction I C) → Decidable (s.InOrder fmt action)
  | .call _ c =>
    have (position : UInt64) : Decidable (∀ earlier ∈ s.wl.positions fmt, earlier ≤ position) :=
      List.decidableBAll _ _
    Option.decidableForallMem (s.wl.positionFor c)
  | .restart _ _ _ _ => inferInstanceAs (Decidable (_ = _))
  | .sync | .periodicSync | .rotate _ | .pruneThrough _ _ | .examine _ => isTrue trivial

end PruneLog

section Positions

variable {bytes : List UInt8} {el : Element} {els : List Element}

theorem positionsIn_segmentBytes (h : ∀ el ∈ els, FitsFrame fmt el) :
    positionsIn fmt (segmentBytes fmt els) = els.filterMap positionOf := by
  have haccepts : (scan (segmentBytes fmt els)).1.map (positionReader fmt).accept =
      (els.map positionOf).map .ok := by
    rw [scan_segmentBytes h, List.map_map, List.map_map]
    exact List.map_congr_left fun el _ => accept_positionReader_encode
  rw [positionsIn, FrameReader.read, FrameReader.readFrames_of_accepts _ haccepts, List.reduceOption,
    List.filterMap_map]
  rfl

theorem positionOf_preamble (hel : el.IsPreamble) (hfits : FitsFrame fmt el) : positionOf el = none := by
  obtain ⟨htype, hash, hpayload⟩ := hel
  exact (read_manifest_element htype hpayload hfits).placed

theorem positionOf_item {item : ReplayItem C} (h : itemIn fmt el = .ok (some item)) :
    ∃ position, positionOf el = some position := by
  rw [positionOf]
  by_cases hcommand : el.elementType = .command ∧ isUWAL el.payload = true
  · rw [if_pos hcommand]
    rw [itemIn, if_neg (not_not.mpr hcommand.1), if_pos hcommand.2] at h
    cases hdecode : decodeUWAL el.payload with
    | error e => exact ⟨el.lsn, rfl⟩
    | ok r =>
      rw [hdecode] at h
      dsimp only at h ⊢
      by_cases hmanifest : r.kind = uwalKindManifest
      · rw [if_pos hmanifest] at h
        cases h
      · rw [if_neg hmanifest]
        exact ⟨r.index, rfl⟩
  · rw [if_neg hcommand]
    exact ⟨el.lsn, rfl⟩

/-- Where a replay finds an item, the search for positions finds a position. -/
theorem exists_position {f : RawFrame} {item : ReplayItem C} (h : (itemReader fmt).accept f = .ok (some item)) :
    ∃ position, (positionReader fmt).accept f = .ok (some position) := by
  rw [itemReader] at h
  dsimp only at h
  rw [elementOf] at h
  split at h
  · cases h
  · split at h
    · cases h
    · next hsum =>
      cases hdecode : fmt.element.decode f.payload with
      | none =>
        rw [hdecode] at h
        cases h
      | some el =>
        rw [hdecode] at h
        obtain ⟨position, hposition⟩ := positionOf_item (show itemIn fmt el = .ok (some item) from h)
        refine ⟨position, ?_⟩
        rw [positionReader]
        dsimp only
        rw [if_neg hsum, hdecode, ← hposition]

theorem Intact.itemsIn_eq_nil (h : Intact fmt bytes) (hnone : positionsIn fmt bytes = []) :
    itemsIn fmt bytes = [] := by
  obtain ⟨marks, hitems, _, hpositions, _⟩ := h
  rw [positionsIn, hpositions.read_eq] at hnone
  rw [itemsIn, hitems.read_eq, List.eq_nil_iff_forall_not_mem]
  intro item hitem
  have hmark : Except.ok (some item) ∈ (scan bytes).1.map (itemReader fmt).accept := by
    rw [hitems.accepts]
    exact List.mem_map_of_mem (List.reduceOption_mem_iff.mp hitem)
  obtain ⟨f, hf, haccept⟩ := List.mem_map.mp hmark
  obtain ⟨position, hposition⟩ := exists_position haccept
  have hplace : Except.ok (some position) ∈ (marks.map Prod.snd).map (Except.ok : Option UInt64 → Except Unit _) := by
    rw [← hpositions.accepts, ← hposition]
    exact List.mem_map_of_mem hf
  obtain ⟨place, hplace, heq⟩ := List.mem_map.mp hplace
  cases heq
  rw [List.eq_nil_iff_forall_not_mem] at hnone
  exact hnone position (List.reduceOption_mem_iff.mpr hplace)

theorem getLastD_mem_or (positions : List UInt64) : positions = [] ∨ positions.getLastD 0 ∈ positions := by
  rcases List.eq_nil_or_concat positions with hnil | ⟨front, last, rfl⟩
  · exact Or.inl hnil
  · right
    rw [List.concat_eq_append, List.getLastD_concat]
    exact List.mem_append_right _ List.mem_cons_self

end Positions

namespace Forge

variable {wl next : Forge} {closed : List (ℕ × List Element)} {last added : List Element}

/-- The positions in the log are those of the elements that it carries. -/
theorem Carries.positions_eq (h : wl.Carries fmt closed last) :
    wl.positions fmt = (closed.flatMap Prod.snd ++ last).filterMap positionOf := by
  have hclosed : (closed.map fun segment => (segment.1, segmentBytes fmt segment.2)).flatMap
      (fun segment => positionsIn fmt segment.2) = (closed.flatMap Prod.snd).filterMap positionOf := by
    have hfits : ∀ el ∈ closed.flatMap Prod.snd, FitsFrame fmt el :=
      fun el hel => h.fits el (List.mem_append_left _ hel)
    clear h
    induction closed with
    | nil => rfl
    | cons segment rest ih =>
      rw [List.flatMap_cons] at hfits
      rw [List.map_cons, List.flatMap_cons, List.flatMap_cons, List.filterMap_append,
        ih fun el hel => hfits el (List.mem_append_right _ hel),
        positionsIn_segmentBytes fun el hel => hfits el (List.mem_append_left _ hel)]
  rw [positions, contents, List.flatMap_append, h.files_eq, hclosed, List.flatMap_singleton, h.content_eq,
    positionsIn_segmentBytes fun el hel => h.fits el (List.mem_append_right _ hel), List.filterMap_append]

theorem positions_carried (fmt : Format C) (wl : Forge) (times : Times) (c : ForgeCall C)
    (hfits : ∀ el ∈ wl.carried fmt times c, FitsFrame fmt el) :
    (wl.carried fmt times c).filterMap positionOf = [] ∨
      ∃ position ∈ wl.positionFor c, (wl.carried fmt times c).filterMap positionOf = [position] := by
  rw [carried] at hfits ⊢
  by_cases hreply : (wl.call fmt .clear times c).2 = .returnsNil
  · rw [if_pos hreply] at hfits ⊢
    cases c with
    | log c =>
      have hplain : ¬ (ElementType.command = .command ∧ isUWAL (fmt.command.encode c) = true) := by
        rw [fmt.command_not_uwal]
        exact fun hboth => Bool.false_ne_true hboth.2
      have hposition : positionOf (wl.elementFor times (fmt.command.encode c)) = some (UInt64.ofNat (wl.lsn + 1)) :=
        if_neg hplain
      exact Or.inr ⟨_, rfl, List.filterMap_cons_some hposition⟩
    | normal e =>
      by_cases hforbids : wl.manifest.enforce = .strict ∧ wl.manifest.isUWAL1 = false
      · rw [Forge.call, Forge.appendNormal, if_pos hforbids] at hreply
        cases hreply
      · cases hcmd : e.cmd with
        | none =>
          rw [Forge.call, Forge.appendNormal, if_neg hforbids, hcmd] at hreply
          cases hreply
        | some c =>
          rw [ForgeCall.payload?, hcmd] at hfits ⊢
          refine Or.inr ⟨e.index, ?_, ?_⟩
          · rw [positionFor, if_neg hforbids, hcmd]
            rfl
          · exact List.filterMap_cons_some (positionOf_normal_element rfl rfl (hfits _ List.mem_cons_self))
    | hardState bytes => exact Or.inl rfl
  · rw [if_neg hreply]
    exact Or.inl rfl

/-- The log is sound and carries elements, and the positions are not zero and do not go down. -/
structure Ordered (fmt : Format C) (wl : Forge) : Prop where
  sound : wl.Sound fmt
  carries : ∃ closed last, wl.Carries fmt closed last
  ascending : (wl.positions fmt).Pairwise (· ≤ ·)
  numbered : ∀ position ∈ wl.positions fmt, position ≠ 0

/-- Files are only added, with numbers from that of the open segment on. -/
def AddsFiles (wl next : Forge) : Prop :=
  (∀ file ∈ next.files, file ∈ wl.files ∨ wl.csIdx ≤ file.1) ∧ wl.csIdx ≤ next.csIdx

/-- Positions stay in order when elements are added whose positions are in order. -/
theorem Ordered.adds (h : wl.Ordered fmt) (hsound : next.Sound fmt) (hcarries : wl.Carries fmt closed last)
    {first els : List Element} (hfirst : ∀ el ∈ first, el.IsPreamble)
    (hadds : wl.Adds fmt next closed last (first ++ els))
    (hels : (∀ el ∈ els, FitsFrame fmt el) → els.filterMap positionOf = [] ∨
      ∃ position, position ≠ 0 ∧ (∀ earlier ∈ wl.positions fmt, earlier ≤ position) ∧
        els.filterMap positionOf = [position]) :
    next.Ordered fmt ∧ wl.AddsFiles next := by
  obtain ⟨⟨closed', last', hnext, hall⟩, ⟨more, hfiles, hmore⟩, hidx⟩ := hadds.spec hcarries
  have hfits (el : Element) (hel : el ∈ first ++ els) : FitsFrame fmt el := by
    refine hnext.fits el ?_
    rw [hall]
    exact List.mem_append_right _ hel
  have hpreambles : first.filterMap positionOf = [] := List.filterMap_eq_nil_iff.mpr fun el hel =>
    positionOf_preamble (hfirst el hel) (hfits el (List.mem_append_left _ hel))
  have hadded : (first ++ els).filterMap positionOf = els.filterMap positionOf := by
    rw [List.filterMap_append, hpreambles, List.nil_append]
  have hpositions : next.positions fmt = wl.positions fmt ++ els.filterMap positionOf := by
    rw [hnext.positions_eq, hcarries.positions_eq, hall, List.filterMap_append, hadded]
  refine ⟨?_, ⟨fun file hfile => ?_, hidx⟩⟩
  · rcases hels fun el hel => hfits el (List.mem_append_right _ hel) with hnone | ⟨position, hne, hle, hone⟩
    · rw [hnone, List.append_nil] at hpositions
      exact ⟨hsound, ⟨closed', last', hnext⟩, hpositions ▸ h.ascending, hpositions ▸ h.numbered⟩
    · rw [hone] at hpositions
      refine ⟨hsound, ⟨closed', last', hnext⟩, ?_, ?_⟩
      · rw [hpositions, List.pairwise_append]
        refine ⟨h.ascending, List.pairwise_singleton _ _, fun earlier hearlier later hlater => ?_⟩
        rw [List.mem_singleton.mp hlater]
        exact hle earlier hearlier
      · rw [hpositions]
        intro other hother
        rcases List.mem_append.mp hother with hold | hnew
        · exact h.numbered other hold
        · rw [List.mem_singleton.mp hnew]
          exact hne
  · rw [hfiles] at hfile
    exact (List.mem_append.mp hfile).imp id (hmore file)

theorem Ordered.step (h : wl.Ordered fmt) {action : ForgeAction C}
    (hallowed : ∀ times c, action = .call times c → wl.InOrder fmt c)
    (hstep : wl.step fmt action = some next) : next.Ordered fmt ∧ wl.AddsFiles next := by
  obtain ⟨closed, last, hcarries⟩ := h.carries
  obtain ⟨first, hfirst, hadds⟩ := hcarries.step h.sound hstep
  refine h.adds (h.sound.step hstep).1 hcarries hfirst hadds fun hfits => ?_
  cases action with
  | call times c =>
    rcases positions_carried fmt wl times c hfits with hnone | ⟨position, hposition, hone⟩
    · exact Or.inl hnone
    · obtain ⟨hne, hle⟩ := hallowed times c rfl position hposition
      exact Or.inr ⟨position, hne, hle, hone⟩
  | sync | periodicSync | rotate time | restart cfg manifest manifestHash time => exact Or.inl rfl

theorem Ordered.afterSync (h : wl.Ordered fmt) : wl.afterSync.Ordered fmt ∧ wl.AddsFiles wl.afterSync := by
  have hstep : wl.step fmt .periodicSync = some wl.afterSync := by
    rw [Forge.step, sync_clear h.sound.healthy]
    rfl
  exact Ordered.step h (fun _ _ heq => by cases heq) hstep

theorem Carries.cut (h : wl.Carries fmt closed last) {count : ℕ} (hclean : wl.tornEnding count = .clean) :
    ∃ kept, kept <+: last ∧ (wl.cut count).Carries fmt closed kept := by
  have hfits : ∀ el ∈ last, FitsFrame fmt el := fun el hel => h.fits el (List.mem_append_right _ hel)
  have hframes : (scan wl.out.content).1 =
      (last.map fmt.element.encode).map fun payload => ⟨fmt.checksum payload, payload⟩ := by
    rw [h.content_eq, scan_segmentBytes hfits, List.map_map]
    rfl
  rw [tornEnding, hframes] at hclean
  have hkept : last.take (framesWithin count (scan wl.out.content).1) <+: last := List.take_prefix _ _
  refine ⟨_, hkept, ⟨h.files_eq, ?_, fun el hel => h.fits el ((hkept.sublist.append_left _).subset hel)⟩⟩
  change wl.out.content.take count ++ [] = _
  rw [List.append_nil, hframes, h.content_eq, segmentBytes, segmentBytes, List.map_take]
  exact sumFirst.take_stream fmt.checksum _ hclean

theorem Ordered.restart (h : wl.Ordered fmt) (hclean : wl.tornEnding wl.out.file.length = .clean)
    {cfg : ForgeConfig} {manifest : Manifest} {manifestHash : List UInt8} {time : ℤ} {hardState : Option (List UInt8)}
    (hopened : Forge.init fmt cfg manifest manifestHash none time wl.directory hardState = (next, .returnsNil)) :
    next.Ordered fmt := by
  obtain ⟨closed, last, hcarries⟩ := h.carries
  obtain ⟨kept, hkept, hcut⟩ := hcarries.cut hclean
  have hdirectory : (wl.cut wl.out.file.length).directory = wl.directory := by
    change wl.files ++ [(wl.csIdx, wl.out.content.take wl.out.file.length)] = _
    rw [BufferedFile.content, List.take_left]
    rfl
  have hsublist : ((wl.cut wl.out.file.length).positions fmt).Sublist (wl.positions fmt) := by
    rw [hcut.positions_eq, hcarries.positions_eq]
    exact (hkept.sublist.append_left _).filterMap _
  have hordered : (wl.cut wl.out.file.length).Ordered fmt :=
    ⟨(h.sound.cut hclean).1, ⟨closed, kept, hcut⟩, h.ascending.sublist hsublist,
      fun position hposition => h.numbered position (hsublist.subset hposition)⟩
  rw [← hdirectory] at hopened
  obtain ⟨first, hfirst, hadds⟩ := hcut.init hordered.sound.toWhole rfl hopened
  rw [← List.append_nil first] at hadds
  exact (hordered.adds (hordered.sound.init rfl hopened).1 hcut hfirst hadds fun _ => Or.inl rfl).1

theorem Ordered.removeFile (h : wl.Ordered fmt) (seg : ℕ) : (wl.removeFile seg).Ordered fmt := by
  obtain ⟨closed, last, hcarries⟩ := h.carries
  have hkept : (closed.filter (·.1 ≠ seg)).Sublist closed := List.filter_sublist
  have hcarries' : (wl.removeFile seg).Carries fmt (closed.filter (·.1 ≠ seg)) last := by
    refine ⟨?_, hcarries.content_eq, fun el hel => hcarries.fits el ?_⟩
    · change wl.files.filter _ = _
      rw [hcarries.files_eq, List.filter_map]
      rfl
    · exact ((hkept.flatMap _).append_right _).subset hel
  have hsublist : ((wl.removeFile seg).positions fmt).Sublist (wl.positions fmt) := by
    rw [hcarries'.positions_eq, hcarries.positions_eq]
    exact ((hkept.flatMap _).append_right _).filterMap _
  exact ⟨(h.sound.removeFile seg).1, ⟨_, last, hcarries'⟩, h.ascending.sublist hsublist,
    fun position hposition => h.numbered position (hsublist.subset hposition)⟩

theorem ordered_init {cfg : ForgeConfig} {manifest : Manifest} {manifestHash : List UInt8} {time : ℤ}
    (hopened : Forge.init fmt cfg manifest manifestHash none time [] none = (wl, .returnsNil)) : wl.Ordered fmt := by
  obtain ⟨first, hfirst, hcarries, _⟩ := carries_init hopened
  have hnone : wl.positions fmt = [] := by
    rw [hcarries.positions_eq]
    exact List.filterMap_eq_nil_iff.mpr fun el hel => positionOf_preamble (hfirst el hel) (hcarries.fits el hel)
  refine ⟨(sound_init hopened).1, ⟨[], first, hcarries⟩, ?_, ?_⟩
  · rw [hnone]
    exact .nil
  · rw [hnone]
    exact fun position hposition => absurd hposition List.not_mem_nil

end Forge

end SevenDB.Wal
