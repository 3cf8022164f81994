import Mathlib.Data.List.DropRight
import SevenDB.RaftWal.Segments

/-!
# The order of a replay of the shadow log

The readers take the segment files in the order of their names, and a name holds the number of the
segment as plain digits. As long as every segment that is written to has a name after the names of
the segments written before, a replay gives the envelopes in the order of their appends. The tenth
rotation breaks this: the name of segment 10 comes before the name of segment 2.
-/

namespace SevenDB.RaftWal

open SevenDB.Common

/-- The segment that a call appends to has a name after the names of the other segments that hold
something. -/
def Writer.InNameOrder (w : Writer) (call : Call) : Prop :=
  ∀ segment ∈ w.contents, segment.2 ≠ [] → segment.1 ≠ w.target call →
    segmentFileName segment.1 < segmentFileName (w.target call)

instance (w : Writer) (call : Call) : Decidable (w.InNameOrder call) :=
  inferInstanceAs (Decidable (∀ segment ∈ w.contents, segment.2 ≠ [] → segment.1 ≠ w.target call →
    segmentFileName segment.1 < segmentFileName (w.target call)))

/-- What a call has to meet to be read back in its place: its envelope fits a frame, the bytes of a
hard state are not empty, and its segment is in the order of names. -/
def ReadsBack (codec : ByteCodec Envelope) (w : Writer) (call : Call) : Prop :=
  Fits codec call.env ∧ (call.env.kind = .hardState → call.env.appBytes ≠ []) ∧ w.InNameOrder call

instance (codec : ByteCodec Envelope) (w : Writer) (call : Call) : Decidable (ReadsBack codec w call) :=
  inferInstanceAs (Decidable (_ ∧ _ ∧ _))

section Names

variable {codec : ByteCodec Envelope} {checksum : List UInt8 → UInt32} {cfg : Config} {w next : Writer}
  {call : Call}

theorem inKeyOrder_step (h : w.Sound codec checksum) (horder : InKeyOrder segmentFileName w.contents)
    (hnames : w.InNameOrder call) (hstep : w.step cfg codec checksum call = some next) :
    InKeyOrder segmentFileName next.contents := by
  obtain ⟨before, first, written, count, hbefore, htarget, hwrote, hnext⟩ := Writer.step_spec h.healthy hstep
  have hfresh (first count : ℕ) : (Writer.freshSegments first count).filter (·.2 ≠ []) = [] := by
    rw [List.filter_eq_nil_iff]
    intro segment hsegment
    obtain ⟨n, _, rfl⟩ := List.mem_map.mp hsegment
    simp
  have hsound := (h.movedOn hbefore).1
  have hbeforeOrder : InKeyOrder segmentFileName before.contents := by
    rw [InKeyOrder, hbefore.contents_eq, List.filter_append, hfresh, List.append_nil]
    exact horder
  rw [InKeyOrder, Writer.contents, List.filter_append, List.pairwise_append] at hbeforeOrder
  rw [InKeyOrder, hnext.contents_eq, List.filter_append, hfresh, List.append_nil, Writer.contents,
    hwrote.files_eq, hwrote.segIdx_eq, List.filter_append, List.pairwise_append]
  refine ⟨hbeforeOrder.1, List.Pairwise.filter _ (List.pairwise_singleton _ _), fun segment hsegment last hlast => ?_⟩
  have hlastIdx : last.1 = w.target call := by
    rw [List.mem_singleton.mp (List.mem_of_mem_filter hlast)]
    exact htarget
  obtain ⟨hfile, hne⟩ := List.mem_filter.mp hsegment
  have hold : segment ∈ w.contents := by
    have hmem : segment ∈ before.contents := List.mem_append_left _ hfile
    rw [hbefore.contents_eq] at hmem
    refine (List.mem_append.mp hmem).resolve_right fun hmoved => ?_
    have hnone : segment ∈ (Writer.freshSegments (w.segIdx + 1) first).filter (·.2 ≠ []) :=
      List.mem_filter.mpr ⟨hmoved, hne⟩
    rw [hfresh] at hnone
    cases hnone
  rw [hlastIdx]
  refine hnames segment hold (of_decide_eq_true hne) ?_
  rw [← htarget]
  exact (hsound.lt_segIdx hfile).ne

end Names

section Picking

/-- The last elements up to a limit are what is left when the others are dropped. -/
theorem lastUpTo_eq_rtake {T : Type} (limit : ℕ) (all : List T) : lastUpTo limit all = all.rtake limit := by
  unfold lastUpTo List.rtake
  split
  · rfl
  · next hlong => rw [Nat.sub_eq_zero_of_le (Nat.not_lt.mp hlong), List.drop_zero]

/-- The last hard state is found when the bytes of hard states are not empty. -/
theorem lastHardState_eq {envs : List Envelope}
    (h : ∀ env ∈ envs, env.kind = .hardState → env.appBytes ≠ []) :
    lastHardState envs = (envs.filter (·.kind = .hardState)).getLast?.map Envelope.appBytes := by
  induction envs using List.reverseRecOn with
  | nil => rfl
  | append_singleton front env ih =>
    have hfront := ih fun other hother => h other (List.mem_append_left _ hother)
    rw [lastHardState, List.foldl_append, List.foldl_cons, List.foldl_nil, List.filter_append]
    by_cases hkind : env.kind = .hardState
    · have hbytes := h env (List.mem_append_right _ List.mem_cons_self) hkind
      rw [if_pos hkind, List.filter_cons_of_pos (by simpa using hkind), List.filter_nil, List.getLast?_concat]
      rw [if_neg hbytes]
      rfl
    · rw [if_neg hkind, List.filter_cons_of_neg (by simpa using hkind), List.filter_nil, List.append_nil]
      exact hfront

end Picking

section Replaying

variable {codec : ByteCodec Envelope} {checksum : List UInt8 → UInt32} {cfg : Config} {w : Writer}

theorem Writer.Sound.directory_close (h : w.Sound codec checksum) : w.close.directory = w.contents := by
  rw [Writer.close, if_neg (by simp [h.opened]), Writer.directory, BufferedFile.flush_none _ h.healthy]
  rfl

/-- Reading intact segments one after another gives the envelopes of each. -/
theorem readAll_intact {segments : List (ℕ × List UInt8)}
    (h : ∀ segment ∈ segments, Intact codec checksum segment.2) :
    (segmentReader codec checksum).readAll (segments.map Prod.snd) =
      (segments.flatMap fun segment => envelopesIn codec checksum segment.2, none) := by
  induction segments with
  | nil => rfl
  | cons segment rest ih =>
    rw [List.map_cons, FrameReader.readAll, (h segment List.mem_cons_self).read_eq,
      ih fun other hother => h other (List.mem_cons_of_mem segment hother), List.flatMap_cons]

theorem collect_of_replay {directory : List (ℕ × List UInt8)} {envs : List Envelope}
    (h : replay codec checksum directory = (envs, none)) {T : Type} (pick : List Envelope → T) :
    collect codec checksum directory pick = .ok (pick envs) := by
  rw [collect, h]

/-- A new writer in an empty directory is sound and has stored nothing. -/
theorem sound_newWriter (cfg : Config) :
    (newWriter cfg []).Sound codec checksum ∧ (newWriter cfg []).stored codec checksum = [] := by
  refine ⟨⟨rfl, rfl, fun segment hsegment => ?_, List.pairwise_singleton _ _⟩, rfl⟩
  rw [List.mem_singleton.mp hsegment]
  exact intact_nil

variable {calls : List Call} {start : Writer}

section

variable (hrun : Run (Writer.step cfg codec checksum) (ReadsBack codec) start calls w)
include hrun

section

variable (hstart : start.Sound codec checksum) (horder : InKeyOrder segmentFileName start.contents)
include hstart horder

theorem inKeyOrder_run :
    w.Sound codec checksum ∧ InKeyOrder segmentFileName w.contents := by
  refine hrun.invariant (fun state => state.Sound codec checksum ∧ InKeyOrder segmentFileName state.contents)
    (fun state call next h hallowed hstep => ?_) ⟨hstart, horder⟩
  exact ⟨(h.1.step hallowed.1 hstep).1, inKeyOrder_step h.1 h.2 hallowed.2.2 hstep⟩

/-- After calls that are read back and a close, a replay gives what was stored before and the envelopes of
the calls. -/
theorem replay_run :
    replay codec checksum w.close.directory = (start.stored codec checksum ++ calls.map Call.env, none) := by
  obtain ⟨hsound, hordered⟩ := inKeyOrder_run hrun hstart horder
  have hstored := (hstart.run (fun _ _ hallowed => hallowed.1) hrun).2
  rw [hsound.directory_close, replay, readAll_sortFiles _ _ hordered, readAll_intact hsound.intact]
  exact congrArg (·, none) hstored

end

/-- The bytes of hard states in calls that are read back are not empty. -/
theorem appBytes_ne_nil_of_run :
    ∀ env ∈ calls.map Call.env, env.kind = .hardState → env.appBytes ≠ [] := by
  intro env henv
  obtain ⟨call, hcall, rfl⟩ := List.mem_map.mp henv
  exact hrun.forall_mem (P := fun call => call.env.kind = .hardState → call.env.appBytes ≠ [])
    (fun _ _ hallowed => hallowed.2.1) call hcall

end

theorem inKeyOrder_newWriter (cfg : Config) : InKeyOrder segmentFileName (newWriter cfg []).contents :=
  List.Pairwise.filter _ (List.pairwise_singleton _ _)

/-- After calls that are read back and a close, a replay gives the envelopes in the order of their
appends, the last hard state is the one appended last, and the tails are those of the normal envelopes
in the order of their appends. -/
theorem replay_append_order {calls : List Call}
    (hrun : Run (Writer.step cfg codec checksum) (ReadsBack codec) (newWriter cfg []) calls w) :
    replay codec checksum w.close.directory = (calls.map Call.env, none) ∧
      replayLastHardState codec checksum w.close.directory =
        .ok (((calls.map Call.env).filter (·.kind = .hardState)).getLast?.map Envelope.appBytes) ∧
      ∀ limit,
        tailLogicalTuples codec checksum w.close.directory limit =
          .ok ((((calls.map Call.env).filter (·.kind = .normal)).map
            fun env => (env.raftIndex, env.appCrc)).rtake limit) ∧
        tailLogicalCRCs codec checksum w.close.directory limit =
          .ok ((((calls.map Call.env).filter (·.kind = .normal)).map Envelope.appCrc).rtake limit) := by
  obtain ⟨hnew, hnone⟩ : (newWriter cfg []).Sound codec checksum ∧ _ := sound_newWriter cfg
  have hreplay := replay_run hrun hnew (inKeyOrder_newWriter cfg)
  rw [hnone, List.nil_append] at hreplay
  refine ⟨hreplay, ?_, fun limit => ⟨?_, ?_⟩⟩
  · rw [replayLastHardState, collect_of_replay hreplay, lastHardState_eq (appBytes_ne_nil_of_run hrun)]
  · rw [tailLogicalTuples, collect_of_replay hreplay, lastUpTo_eq_rtake]
    split
    · next hzero => rw [hzero, List.rtake_zero]
    · rfl
  · rw [tailLogicalCRCs, collect_of_replay hreplay, lastUpTo_eq_rtake]
    split
    · next hzero => rw [hzero, List.rtake_zero]
    · rfl

end Replaying

/-- A checksum that only looks at the length. -/
def lengthChecksum (payload : List UInt8) : UInt32 := UInt32.ofNat payload.length

/-- A writer that leaves its segment after every append. -/
def rotatingConfig : Config := ⟨1, 1, 0, false⟩

def normalCall (index : UInt64) : Call :=
  .envelope index ⟨index, 1, .normal, [7], UInt32.ofNat index.toNat, 0, "", "", 0, 0⟩

def hardStateCall (commit : UInt64) : Call :=
  .hardState ⟨commit, 1, .hardState, [UInt8.ofNat commit.toNat], 0, 0, "", "", 0, 0⟩

/-- Two entries around a hard state, each in a segment of its own, are read back in their order. -/
theorem replay_append_order_three_segments :
    ∃ w : Writer, Run (Writer.step rotatingConfig tallyEnvelope lengthChecksum) (ReadsBack tallyEnvelope)
        (newWriter rotatingConfig []) [normalCall 1, hardStateCall 1, normalCall 2] w ∧ w.segIdx = 3 ∧
      replay tallyEnvelope lengthChecksum w.close.directory =
        ([(normalCall 1).env, (hardStateCall 1).env, (normalCall 2).env], none) ∧
      replayLastHardState tallyEnvelope lengthChecksum w.close.directory = .ok (some [1]) ∧
      tailLogicalCRCs tallyEnvelope lengthChecksum w.close.directory 1 = .ok [2] := by
  refine exists_run_imp _ (fun w : Writer => w.segIdx = 3) (by decide +kernel) (fun _ _ => id) fun w hrun hidx => ?_
  obtain ⟨hreplay, hlast, htails⟩ := replay_append_order hrun
  exact ⟨hidx, hreplay, hlast, (htails 1).2⟩

/-- Twelve appends that fit a frame, in a segment each: a hard state comes in the third and in the
eleventh one. -/
def twelveCalls : List Call :=
  [normalCall 1, normalCall 2, hardStateCall 2, normalCall 3, normalCall 4, normalCall 5, normalCall 6,
    normalCall 7, normalCall 8, normalCall 9, hardStateCall 9, normalCall 10]

/-- The segments with the numbers 10 and 11 are read before the third one: the replay is out of order,
an old hard state is taken for the last one, and the tail ends with the last entry but one. -/
theorem replay_out_of_order :
    (∀ call ∈ twelveCalls, Fits tallyEnvelope call.env) ∧
    ∃ w : Writer, Run (Writer.step rotatingConfig tallyEnvelope lengthChecksum) (fun _ _ => True)
        (newWriter rotatingConfig []) twelveCalls w ∧
      (replay tallyEnvelope lengthChecksum w.close.directory).1.map (fun env => (env.kind, env.raftIndex)) =
        [(.normal, 1), (.normal, 2), (.hardState, 9), (.normal, 10), (.hardState, 2), (.normal, 3), (.normal, 4),
          (.normal, 5), (.normal, 6), (.normal, 7), (.normal, 8), (.normal, 9)] ∧
      replayLastHardState tallyEnvelope lengthChecksum w.close.directory = .ok (some [2]) ∧
      tailLogicalTuples tallyEnvelope lengthChecksum w.close.directory 1 = .ok [(9, 9)] :=
  ⟨by decide +kernel, exists_run (by decide +kernel)⟩

end SevenDB.RaftWal
