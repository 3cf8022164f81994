import SevenDB.Raft.ValidatorRing
import SevenDB.Raft.WalEntries
import SevenDB.RaftWal.TornTail

/-!
# The validator agrees with the shadow log

A node appends every committed entry to the shadow log and gives its tuple to the validator, which a start seeds
from the tail of the log. A validation that reads the tail again finds what the validator holds, as long as no
segment is pruned and restarts find whole frames.
-/

namespace SevenDB

def RaftWal.Writer.sync (w : Writer) : Writer := if w.closed then w else { w with out := (w.out.flush none).fsync }

namespace Raft

open Common RaftWal WalValidator

/-- Why a validation fails: the log cannot be read, or tuples differ in number or at a place. -/
inductive TailError
  | scan (e : ScanError)
  | length (wal ring : ℕ)
  | mismatch (place : ℕ) (ringHead walHead : List (UInt64 × UInt32))

/-- A node with its shadow log and its validator. -/
structure ShadowNode where
  cfg : Config
  w : Writer
  validator : Option WalValidator

/-- What a node does: apply a committed entry, log a hard state, and start again after the last segment was cut. -/
inductive ShadowAction
  | commit (ent : Entry)
  | hardState (env : Envelope)
  | restart (cfg : Config) (lastN : ℤ) (count : ℕ)

namespace ShadowNode

variable {C : Type} (json : Unmarshal C) (codec : ByteCodec Envelope) (checksum crc : List UInt8 → UInt32)

/-- Sync the log and compare its tail with the validator. -/
def validateShadowTail (s : ShadowNode) : Except TailError Unit :=
  let ring := (snapshot s.validator).map fun t => (t.index, t.crc)
  if ring = [] then .ok () else
    match tailLogicalTuples codec checksum s.w.sync.directory ring.length with
    | .error e => .error (.scan e)
    | .ok tuples =>
      if tuples.length ≠ ring.length then .error (.length tuples.length ring.length) else
        match (List.range ring.length).find? fun i => ring[i]? ≠ tuples[i]? with
        | none => .ok ()
        | some place => .error (.mismatch place (ring.take 10) (tuples.take 10))

/-- Open the log and seed the validator from its tail. -/
def start (cfg : Config) (lastN : ℤ) (directory : List (ℕ × List UInt8)) : ShadowNode :=
  let w := newWriter cfg directory
  ⟨cfg, w, seedTuples (newWalValidator lastN)
    ((tailLogicalTuples codec checksum w.directory lastN.toNat).toOption.getD [])⟩

/-- One step. An entry that cannot be unmarshalled is passed over. -/
def step (s : ShadowNode) : ShadowAction → Option ShadowNode
  | .commit ent =>
    match walEntry json ent with
    | none => some s
    | some e => (s.w.step s.cfg codec checksum (.envelope e.index (shadowEnvelope crc e))).map fun w =>
        ⟨s.cfg, w, addTuple crc s.validator e.index e.appBytes⟩
  | .hardState env => (s.w.step s.cfg codec checksum (.hardState env)).map fun w => { s with w := w }
  | .restart cfg lastN count => some (start codec checksum cfg lastN (s.w.torn count))

/-- Appends are read back in their place, and a restart finds whole frames. -/
def Undisturbed (s : ShadowNode) : ShadowAction → Prop
  | .commit ent => ∀ e ∈ walEntry json ent, ReadsBack codec s.w (.envelope e.index (shadowEnvelope crc e))
  | .hardState env => env.kind = .hardState ∧ ReadsBack codec s.w (.hardState env)
  | .restart _ _ count => s.w.tornEnding count = .clean

instance (s : ShadowNode) : (action : ShadowAction) → Decidable (s.Undisturbed json codec crc action)
  | .commit ent => inferInstanceAs (Decidable (∀ e ∈ walEntry json ent, ReadsBack codec s.w _))
  | .hardState _ => inferInstanceAs (Decidable (_ ∧ _))
  | .restart _ _ _ => inferInstanceAs (Decidable (_ = _))

/-- The tuples of entries among envelopes, the last one first. -/
def newestTuples (envs : List Envelope) : List WalValTuple :=
  ((envs.filter (·.kind = .normal)).map fun env => WalValTuple.of (env.raftIndex, env.appCrc)).reverse

/-- The log is read back in its order, and the validator holds its last tuples. -/
structure Agrees (s : ShadowNode) : Prop where
  sound : s.w.Sound codec checksum
  inOrder : InKeyOrder segmentFileName s.w.contents
  newest : ∀ v ∈ s.validator, v.tuples.reverse = (newestTuples (s.w.stored codec checksum)).take v.lastN

variable {json codec checksum crc} {s next : ShadowNode}

theorem tail_eq {w : Writer} (hsound : w.Sound codec checksum) (horder : InKeyOrder segmentFileName w.contents)
    (limit : ℕ) :
    ∃ tuples, tailLogicalTuples codec checksum w.contents limit = .ok tuples ∧
      (tuples.map WalValTuple.of).reverse = (newestTuples (w.stored codec checksum)).take limit := by
  have hreplay : RaftWal.replay codec checksum w.contents = (w.stored codec checksum, none) := by
    rw [RaftWal.replay, readAll_sortFiles _ _ horder, readAll_intact hsound.intact]
    rfl
  by_cases hzero : limit = 0
  · exact ⟨[], if_pos hzero, by rw [hzero, List.take_zero]; rfl⟩
  · refine ⟨_, (if_neg hzero).trans (collect_of_replay hreplay _), ?_⟩
    rw [lastUpTo_eq_rtake, List.rtake_eq_reverse_take_reverse, List.map_reverse, List.reverse_reverse, List.map_take,
      List.map_reverse, List.map_map]
    rfl

/-- A start on a log that is read back agrees with it. -/
theorem agrees_start {cfg : Config} {directory : List (ℕ × List UInt8)} (lastN : ℤ)
    (hsound : (newWriter cfg directory).Sound codec checksum)
    (horder : InKeyOrder segmentFileName (newWriter cfg directory).contents) :
    (start codec checksum cfg lastN directory).Agrees codec checksum := by
  refine ⟨hsound, horder, fun v hv => ?_⟩
  obtain ⟨tuples, htail, hnewest⟩ := tail_eq hsound horder lastN.toNat
  have hflushed : (newWriter cfg directory).contents = (newWriter cfg directory).directory := by
    rw [Writer.contents, BufferedFile.content, newWriter, BufferedFile.openAt, List.append_nil]
    rfl
  rw [hflushed] at htail
  rw [start, htail] at hv
  obtain ⟨fresh, hfresh, rfl⟩ := Option.map_eq_some_iff.mp hv
  obtain ⟨hempty, hlastN⟩ : fresh.count = 0 ∧ fresh.lastN = lastN.toNat := by
    unfold newWalValidator at hfresh
    split at hfresh
    · cases hfresh
    · cases hfresh
      exact ⟨rfl, rfl⟩
  obtain ⟨hlast, hseeded⟩ := fresh.reverse_tuples_seed hempty (tuples.map WalValTuple.of)
  rw [Except.toOption, Option.getD_some] at *
  rw [hlast, hseeded, hnewest, hlastN, List.take_take, Nat.min_self]
  rfl

/-- Every undisturbed step keeps the validator in agreement with the log. -/
theorem Agrees.step (h : s.Agrees codec checksum) {action : ShadowAction}
    (hallowed : s.Undisturbed json codec crc action) (hstep : s.step json codec checksum crc action = some next) :
    next.Agrees codec checksum := by
  cases action with
  | commit ent =>
    rw [ShadowNode.step] at hstep
    split at hstep
    · cases hstep
      exact h
    · next e hentry =>
      obtain ⟨w, hw, rfl⟩ := Option.map_eq_some_iff.mp hstep
      obtain ⟨hfits, _, hnames⟩ := hallowed e hentry
      obtain ⟨hsound, hstored⟩ := h.sound.step hfits hw
      refine ⟨hsound, inKeyOrder_step h.sound h.inOrder hnames hw, fun v hv => ?_⟩
      obtain ⟨old, hold, rfl⟩ := Option.map_eq_some_iff.mp hv
      -- the new tuple comes first, and the oldest one is dropped once the ring is full
      have hnewest := h.newest old hold
      obtain ⟨n, hn⟩ := Nat.exists_eq_succ_of_ne_zero (Nat.ne_zero_of_lt old.idx_lt)
      change _ = (newestTuples (w.stored codec checksum)).take old.lastN
      rw [old.reverse_tuples_add, hnewest, hstored, hn]
      simp [newestTuples, shadowEnvelope, Call.env, List.take_take]
  | hardState env =>
    obtain ⟨w, hw, rfl⟩ := Option.map_eq_some_iff.mp hstep
    obtain ⟨hkind, hfits, _, hnames⟩ := hallowed
    obtain ⟨hsound, hstored⟩ := h.sound.step hfits hw
    refine ⟨hsound, inKeyOrder_step h.sound h.inOrder hnames hw, fun v hv => ?_⟩
    rw [h.newest v hv, hstored]
    simp [newestTuples, Call.env, hkind]
  | restart cfg lastN count =>
    cases hstep
    obtain ⟨hsound, _, hcontents⟩ := sound_reopened cfg h.sound hallowed
    refine agrees_start lastN hsound ?_
    rw [hcontents]
    exact inKeyOrder_torn h.inOrder count

/-- A validation of a node that agrees with its log succeeds. -/
theorem Agrees.validates (h : s.Agrees codec checksum) : s.validateShadowTail codec checksum = .ok () := by
  have hsynced : s.w.sync.directory = s.w.contents := by
    rw [Writer.sync, if_neg (by simp [h.sound.opened]), BufferedFile.flush_none _ h.sound.healthy]
    rfl
  cases hvalidator : s.validator with
  | none =>
    rw [validateShadowTail, hvalidator]
    rfl
  | some v =>
    have hnewest := h.newest v hvalidator
    obtain ⟨tuples, htail, htuples⟩ := tail_eq h.sound h.inOrder v.tuples.length
    have hlength := congrArg List.length hnewest
    rw [List.length_reverse, List.length_take] at hlength
    have hsame : tuples.map WalValTuple.of = v.tuples := by
      rw [← List.reverse_inj, htuples, hnewest, hlength, List.take_eq_take_iff]
      omega
    have hring : (snapshot (some v)).map (fun t => (t.index, t.crc)) = tuples := by
      rw [snapshot, Option.elim_some, ← hsame, List.map_map]
      exact List.map_id _
    rw [← hsame, List.length_map] at htail
    have hequal : (List.range tuples.length).find? (fun i => tuples[i]? ≠ tuples[i]?) = none :=
      List.find?_eq_none.mpr (by simp)
    rw [validateShadowTail, hvalidator, hring, hsynced, htail]
    dsimp only
    rw [if_neg (not_not.mpr rfl), hequal, ite_self]

end ShadowNode

/-- Over every undisturbed run from a start in an empty directory, restarts with other settings included, a
validation finds the tuples of the validator at the end of the log. -/
theorem shadow_tail_validates {C : Type} {json : Unmarshal C} {codec : ByteCodec Envelope}
    {checksum crc : List UInt8 → UInt32} {cfg : Config} {lastN : ℤ} {actions : List ShadowAction} {s : ShadowNode}
    (hrun : Run (ShadowNode.step json codec checksum crc) (ShadowNode.Undisturbed json codec crc)
      (.start codec checksum cfg lastN []) actions s) :
    s.validateShadowTail codec checksum = .ok () := by
  have hstart : (ShadowNode.start codec checksum cfg lastN []).Agrees codec checksum :=
    ShadowNode.agrees_start lastN (sound_newWriter cfg).1 (inKeyOrder_newWriter cfg)
  exact (hrun.invariant _ (fun _ _ _ h hallowed hstep => h.step hallowed hstep) hstart).validates

/-- An entry and a change of the configuration, a restart with room for one tuple, and a heartbeat. -/
theorem shadow_tail_validates_restarted :
    ∃ actions s, Run (ShadowNode.step plainUnmarshal tallyEnvelope lengthChecksum lengthChecksum)
        (ShadowNode.Undisturbed plainUnmarshal tallyEnvelope lengthChecksum)
        (.start tallyEnvelope lengthChecksum plainConfig 2 []) actions s ∧
      (snapshot s.validator).map WalValTuple.index = [3] ∧
      s.validateShadowTail tallyEnvelope lengthChecksum = .ok () := by
  obtain ⟨s, hrun, hring⟩ := exists_run_of_check
    (ShadowNode.step plainUnmarshal tallyEnvelope lengthChecksum lengthChecksum)
    (ShadowNode.Undisturbed plainUnmarshal tallyEnvelope lengthChecksum) (.start tallyEnvelope lengthChecksum plainConfig 2 [])
    [.commit ⟨1, 1, .normal, [5]⟩, .commit ⟨2, 1, .confChange, [6]⟩, .restart plainConfig 1 9999,
      .commit ⟨3, 1, .normal, []⟩]
    (fun s => (snapshot s.validator).map WalValTuple.index = [3]) (by decide +kernel)
  exact ⟨_, s, hrun, of_decide_eq_true hring, shadow_tail_validates hrun⟩

end Raft

end SevenDB
