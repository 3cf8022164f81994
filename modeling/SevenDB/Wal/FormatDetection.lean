import SevenDB.Wal.SegmentElements

/-!
# Which format a directory is taken for

A start detects the format of a directory from the first frames of its first segments and holds it
against the manifest. The detection looks for the magic of an envelope at the beginning of what a
frame holds. Without a manifest one is made for the format that was detected. With a strict manifest
that declares envelopes, the first record of the first segment has to carry the hash of the manifest.
-/

namespace SevenDB.Wal

open SevenDB.Common

/-- The longest payload that the detection looks at. -/
def detectionLimit : ℕ := 16 * 1024 * 1024

/-- The payloads of a segment that the detection looks at. It leaves the segment at a payload that is empty, too
long or not complete. -/
def scannedPayloads (bytes : List UInt8) : List (List UInt8) :=
  ((scan bytes).1.map RawFrame.payload).takeWhile fun payload => payload ≠ [] && payload.length ≤ detectionLimit

/-- The format of a directory, from a number of segments and of entries; no number is no limit. -/
def detectFormat (directory : List (ℕ × List UInt8)) (maxSegments maxEntries : ℕ) : WALFormat :=
  let segments := (sortFiles id directory).map Prod.snd
  if segments = [] then .uwal1
  else
    let chosen := if maxSegments = 0 then segments else segments.take maxSegments
    let found := chosen.flatMap scannedPayloads
    let payloads := if maxEntries = 0 then found else found.take maxEntries
    let uwalCount := payloads.countP isUWAL
    let legacyCount := payloads.countP fun payload => !isUWAL payload
    if 0 < uwalCount ∧ legacyCount = 0 then .uwal1
    else if uwalCount = 0 ∧ 0 < legacyCount then .legacy
    else if uwalCount = 0 ∧ legacyCount = 0 then .uwal1
    else .mixed

/-- A manifest as it is stored, with what it accepts besides its format. -/
structure StoredManifest extends Manifest where
  mixedOK : Bool

/-- A manifest accepts a detected format. -/
def StoredManifest.verifyAgainst (m : StoredManifest) (detected : WALFormat) : Bool :=
  match m.enforce with
  | .warn => true
  | .strict =>
    if m.isUWAL1 then
      match detected with
      | .uwal1 => true
      | .mixed => m.mixedOK
      | .legacy => false
    else true

/-- The settings for a directory without a manifest. -/
structure ManifestPolicy where
  requireUWAL1 : Bool
  autoCreateManifest : Bool
  enforce : EnforceMode

inductive StartError
  | requiresUWAL1 (detected : WALFormat)
  | formatMismatch (detected : WALFormat)
  | preambleMismatch
  deriving DecidableEq, Repr

/-- The manifest of a start and its hash: the stored one if it accepts the directory, or a new one for the format
that was detected, which may be saved. -/
def chooseManifest (policy : ManifestPolicy) (savedHash : List UInt8) (directory : List (ℕ × List UInt8)) :
    Option (StoredManifest × List UInt8) → Except StartError (StoredManifest × List UInt8)
  | none =>
    let detected := detectFormat directory 2 16
    let version := if detected = .uwal1 then 1 else 0
    if policy.requireUWAL1 = true ∧ detected ≠ .uwal1 then .error (.requiresUWAL1 detected)
    else if policy.autoCreateManifest then .ok (⟨⟨detected, version, policy.enforce⟩, false⟩, savedHash)
    else .ok (⟨⟨detected, version, .warn⟩, false⟩, [])
  | some (m, hash) =>
    let detected := detectFormat directory 2 16
    if m.verifyAgainst detected then .ok (m, hash) else .error (.formatMismatch detected)

section Start

variable {C : Type} (fmt : Format C)

/-- The first record of the first segment carries the hash of a strict manifest that declares envelopes. What is
not such a record is not looked at. -/
def verifyManifestPreambleIfPresent (m : Manifest) (hash : List UInt8) (directory : List (ℕ × List UInt8)) : Bool :=
  if m.isUWAL1 = true ∧ m.enforce = .strict then
    match ((sortFiles id directory).head?.map fun segment => scannedPayloads segment.2).bind List.head? with
    | none => true
    | some payload =>
      match fmt.element.decode payload with
      | none => true
      | some el =>
        if isUWAL el.payload then
          match decodeUWAL el.payload with
          | .error _ => true
          | .ok r => if r.kind = uwalKindManifest then decide (r.cmd = hash) else true
        else true
  else true

/-- Start on what a directory holds, with its manifest if there is one. -/
def startLog (cfg : ForgeConfig) (policy : ManifestPolicy) (savedHash : List UInt8)
    (stored : Option (StoredManifest × List UInt8)) (limit : Option ℕ) (time : ℤ)
    (directory : List (ℕ × List UInt8)) (hardState : Option (List UInt8)) : Except StartError (Forge × Reply) :=
  (chooseManifest policy savedHash directory stored).bind fun chosen =>
    if chosen.1.enforce = .strict ∧ verifyManifestPreambleIfPresent fmt chosen.1.toManifest chosen.2 directory = false
    then .error .preambleMismatch
    else .ok (Forge.init fmt cfg chosen.1.toManifest chosen.2 limit time directory hardState)

end Start

/-- Where an entry of the log came from: LogCommand or AppendEntry. -/
inductive EntrySource
  | command
  | entry
  deriving DecidableEq, Repr

/-- The source of the entry of a call. -/
def ForgeCall.source {C : Type} : ForgeCall C → List EntrySource
  | .log _ => [.command]
  | .normal _ => [.entry]
  | .hardState _ => []

namespace Forge

variable {C : Type} (fmt : Format C)

/-- The source of the entry that an action has logged: that of a call which returned nil. -/
def source (wl : Forge) : ForgeAction C → List EntrySource
  | .call times c => if (wl.call fmt .clear times c).2 = .returnsNil then c.source else []
  | .sync | .periodicSync | .rotate _ | .restart _ _ _ _ => []

/-- A log under a strict manifest that declares envelopes can be started again. -/
def Reopens (wl : Forge) : Prop :=
  wl.manifest.enforce = .strict → wl.manifest.isUWAL1 = true →
    ∀ cfg policy savedHash mixedOK time, ∃ fresh,
      startLog fmt cfg policy savedHash (some (⟨wl.manifest, mixedOK⟩, wl.manifestHash)) none time wl.directory
        wl.hardState = .ok (fresh, .returnsNil)

/-- The detection gives what was written: envelopes, commands, or both; and a log to which only AppendEntry has
written, if anything has, can be started again. -/
structure MatchesWritten (wl : Forge) (sources : List EntrySource) : Prop where
  uwal1 : sources ≠ [] → (∀ source ∈ sources, source = .entry) → detectFormat wl.directory 0 0 = .uwal1
  legacy : sources ≠ [] → (∀ source ∈ sources, source = .command) → detectFormat wl.directory 0 0 = .legacy
  mixed : .entry ∈ sources → .command ∈ sources → detectFormat wl.directory 0 0 = .mixed
  reopens : (∀ source ∈ sources, source = .entry) → wl.Reopens fmt

variable {fmt} {wl next : Forge} {closed : List (ℕ × List Element)} {last : List Element}

/-- The elements of the first segment. -/
def firstElements (closed : List (ℕ × List Element)) (last : List Element) : List Element :=
  (closed.head?.map Prod.snd).getD last

/-- The log is sound and carries elements, of which the first is the first record of a segment or has the sequence
number 1. Without elements nothing was logged. A log that has begun has elements in its first segment. -/
def Written (fmt : Format C) (begun : Prop) (wl : Forge) (sources : List EntrySource) : Prop :=
  wl.Sound fmt ∧ ∃ closed last, wl.Carries fmt closed last ∧
    (∀ el ∈ (closed.flatMap Prod.snd ++ last).head?, el.IsPreamble ∨ el.lsn = 1) ∧
    (closed.flatMap Prod.snd ++ last = [] → wl.lsn = 0 ∧ sources = []) ∧ (begun → firstElements closed last ≠ [])

/-- Elements that are added come behind the earlier ones, and the first segment keeps its own. -/
theorem Adds.firstElements_ne_nil {added : List Element} (h : wl.Adds fmt next closed last added) :
    ∃ closed' last', next.Carries fmt closed' last' ∧
      closed'.flatMap Prod.snd ++ last' = closed.flatMap Prod.snd ++ last ++ added ∧
      (firstElements closed last ≠ [] → firstElements closed' last' ≠ []) := by
  rcases h with ⟨hstays, _⟩ | ⟨hleft, _⟩
  · refine ⟨closed, last ++ added, hstays, (List.append_assoc ..).symm, fun hne => ?_⟩
    cases closed with
    | nil => exact List.append_ne_nil_of_left_ne_nil hne added
    | cons segment rest => exact hne
  · refine ⟨_, added, hleft, by rw [List.flatMap_append, List.flatMap_singleton], fun hne => ?_⟩
    cases closed with
    | nil => exact hne
    | cons segment rest => exact hne

/-- Elements with the next sequence number are added, together with their sources. -/
theorem written_adds {begun : Prop} {sources more : List EntrySource}
    (hhead : ∀ el ∈ (closed.flatMap Prod.snd ++ last).head?, el.IsPreamble ∨ el.lsn = 1)
    (hempty : closed.flatMap Prod.snd ++ last = [] → wl.lsn = 0 ∧ sources = [])
    (hbegun : begun → firstElements closed last ≠ []) (hsound : next.Sound fmt)
    {first els : List Element} (hfirst : ∀ el ∈ first, el.IsPreamble)
    (hadds : wl.Adds fmt next closed last (first ++ els)) (hels : ∀ el ∈ els, el.lsn = UInt64.ofNat (wl.lsn + 1))
    (hmore : els = [] → next.lsn ≤ wl.lsn ∧ more = []) : next.Written fmt begun (sources ++ more) := by
  obtain ⟨closed', last', hnext, hall, hkeeps⟩ := hadds.firstElements_ne_nil
  refine ⟨hsound, closed', last', hnext, fun el hel => ?_, fun hnil => ?_, fun h => hkeeps (hbegun h)⟩
  · rw [hall] at hel
    cases hbefore : closed.flatMap Prod.snd ++ last with
    | nil =>
      rw [hbefore, List.nil_append] at hel
      rcases List.mem_append.mp (List.mem_of_mem_head? hel) with hpreamble | hnew
      · exact Or.inl (hfirst el hpreamble)
      · right
        rw [hels el hnew, (hempty hbefore).1]
        rfl
    | cons front others =>
      rw [hbefore] at hhead hel
      exact hhead el hel
  · rw [hall] at hnil
    obtain ⟨hbefore, hadded⟩ := List.append_eq_nil_iff.mp hnil
    obtain ⟨_, hnone⟩ := List.append_eq_nil_iff.mp hadded
    obtain ⟨hlsn, hsources⟩ := hempty hbefore
    obtain ⟨hle, hnomore⟩ := hmore hnone
    rw [hlsn] at hle
    exact ⟨Nat.le_zero.mp hle, by rw [hsources, hnomore]; rfl⟩

/-- The elements that a step has written have the next sequence number. -/
theorem lsn_carriedBy (fmt : Format C) (wl : Forge) (action : ForgeAction C) :
    ∀ el ∈ wl.carriedBy fmt action, el.lsn = UInt64.ofNat (wl.lsn + 1) := by
  intro el hel
  cases action with
  | call times c =>
    rw [carriedBy, carried] at hel
    obtain ⟨_, hel⟩ := List.mem_ite_nil_right.mp hel
    obtain ⟨payload, _, rfl⟩ := List.mem_map.mp hel
    rfl
  | sync | periodicSync | rotate time | restart cfg manifest manifestHash time => cases hel

/-- A call that has written nothing has logged nothing and has not counted an element. -/
theorem call_unwritten (hsound : wl.Sound fmt) {times : Times} {c : ForgeCall C}
    (hcall : Continues (wl.call fmt .clear times c) = some next) (hnone : wl.carried fmt times c = []) :
    next.lsn ≤ wl.lsn ∧ wl.source fmt (.call times c) = [] := by
  obtain ⟨hstate, hnopanic⟩ := continues_eq_some hcall
  rw [source]
  cases hreply : (wl.call fmt .clear times c).2 with
  | panics => exact absurd hreply hnopanic
  | returnsError e =>
    rw [hsound.call_error (Prod.ext hstate hreply), if_neg Reply.noConfusion]
    exact ⟨Nat.le_refl _, rfl⟩
  | returnsNil =>
    rw [carried, if_pos hreply] at hnone
    rw [if_pos rfl]
    cases c with
    | log c => cases hnone
    | normal e =>
      cases hcmd : e.cmd with
      | none =>
        rw [Forge.call, Forge.appendNormal, hcmd] at hreply
        split at hreply <;> cases hreply
      | some c =>
        rw [ForgeCall.payload?, hcmd] at hnone
        cases hnone
    | hardState bytes =>
      rw [← hstate, Forge.call, Forge.appendHardState]
      split <;> exact ⟨Nat.le_refl _, rfl⟩

/-- A step that has written nothing has logged nothing and has not counted an element. -/
theorem step_unwritten (hsound : wl.Sound fmt) {action : ForgeAction C} (hstep : wl.step fmt action = some next)
    (hnone : wl.carriedBy fmt action = []) : next.lsn ≤ wl.lsn ∧ wl.source fmt action = [] := by
  cases action with
  | call times c => exact call_unwritten hsound hstep hnone
  | sync =>
    rw [← (continues_eq_some hstep).1, Forge.syncNeeded]
    refine ⟨?_, rfl⟩
    by_cases hle : wl.lsn ≤ wl.durableLSN
    · rw [if_pos hle]
    · rw [if_neg hle, sync_clear hsound.healthy]
      exact Nat.le_refl _
  | periodicSync =>
    rw [Forge.step, sync_clear hsound.healthy] at hstep
    cases hstep
    exact ⟨Nat.le_refl _, rfl⟩
  | rotate time => exact ⟨(hsound.rotateLog (hsound.rotateLog_of_step hstep)).2.2.1.le, rfl⟩
  | restart cfg manifest manifestHash time =>
    obtain ⟨synced, _, hopened⟩ := Option.bind_eq_some_iff.mp hstep
    have hlsn := (counters_init fmt cfg manifest manifestHash none time synced.directory synced.hardState).1
    rw [opened_eq_some hopened] at hlsn
    exact ⟨hlsn.trans_le (Nat.zero_le _), rfl⟩

theorem Written.step {begun : Prop} {sources : List EntrySource} (h : wl.Written fmt begun sources)
    {action : ForgeAction C} (hstep : wl.step fmt action = some next) :
    next.Written fmt begun (sources ++ wl.source fmt action) := by
  obtain ⟨hsound, closed, last, hcarries, hhead, hempty, hbegun⟩ := h
  obtain ⟨first, hfirst, hadds⟩ := hcarries.step hsound hstep
  exact written_adds hhead hempty hbegun (hsound.step hstep).1 hfirst hadds (lsn_carriedBy fmt wl action)
    (step_unwritten hsound hstep)

/-- A log that starts on an empty directory has begun if it has a manifest hash. -/
theorem written_init {cfg : ForgeConfig} {manifest : Manifest} {manifestHash : List UInt8} {time : ℤ}
    (hopened : Forge.init fmt cfg manifest manifestHash none time [] none = (wl, .returnsNil)) :
    wl.Written fmt (manifestHash ≠ []) [] := by
  obtain ⟨first, hfirst, hcarries, _, hbegun⟩ := carries_init hopened
  have hlsn := (counters_init fmt cfg manifest manifestHash none time [] none).1
  rw [hopened] at hlsn
  exact ⟨(sound_init hopened).1, [], first, hcarries,
    fun el hel => Or.inl (hfirst el (List.mem_of_mem_head? hel)), fun _ => ⟨hlsn, rfl⟩, hbegun⟩

theorem Written.run {begun : Prop} {sources : List EntrySource} {allowed : Forge → ForgeAction C → Prop}
    {actions : List (ForgeAction C)} (hrun : Run (Forge.step fmt) allowed wl actions next)
    (h : wl.Written fmt begun sources) :
    next.Written fmt begun (sources ++ outputs (Forge.step fmt) (Forge.source fmt) wl actions) := by
  induction hrun generalizing sources with
  | nil =>
    rw [outputs, List.append_nil]
    exact h
  | cons _ hstep _ ih =>
    rw [outputs_cons _ _ hstep, ← List.append_assoc]
    exact ih (h.step hstep)

end Forge

end SevenDB.Wal
