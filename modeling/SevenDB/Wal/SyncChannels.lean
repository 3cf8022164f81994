import SevenDB.Wal.GroupCommit

/-!
# Nobody waits for a sync that has ended

A sync is in progress exactly while there is a leader, and everybody who waits at an open channel waits
for this leader, who closes it when the sync ends, whether it has succeeded or not. Together with the
durable frontier this makes group commit sound in every interleaving.
-/

namespace SevenDB.Wal

open SevenDB.Common

variable {I C : Type} {fmt : Format C}

namespace GroupCommit

/-- A sync is in progress exactly while there is a leader, of whom there is one at a time; its channel is
open, and it is the only open one that somebody waits for. -/
structure Channels (s : GroupCommit I) : Prop where
  waiting : ∀ i call ch, s.calls i = some call → call.phase = .waiting ch →
    ch ∈ s.closed ∨ s.syncInProgress = true ∧ ch = s.syncWaitCh
  led : s.syncInProgress = true → ∃ i call, s.calls i = some call ∧ call.phase = .leading
  leading : ∀ i call, s.calls i = some call → call.phase = .leading →
    s.syncInProgress = true ∧ ∀ j other, s.calls j = some other → other.phase = .leading → j = i
  made : ∀ ch ∈ s.closed, ch ≤ s.syncWaitCh
  opened : s.syncInProgress = true → s.syncWaitCh ∉ s.closed

theorem sound_new {wl : Forge} (h : wl.durableLSN ≤ wl.lsn) :
    (new wl : GroupCommit I).Sound ∧ (new wl : GroupCommit I).Channels := by
  have hnobody (i : I) (call : SyncCall) : (new wl : GroupCommit I).calls i ≠ some call :=
    Option.some_ne_none call |>.symm
  refine ⟨⟨⟨h, ?_, ?_⟩, fun i call hcall => absurd hcall (hnobody i call)⟩,
    ⟨fun i call ch hcall => absurd hcall (hnobody i call), Bool.noConfusion,
      fun i call hcall => absurd hcall (hnobody i call), fun ch hch => absurd hch List.not_mem_nil, Bool.noConfusion⟩⟩
  · exact fun _ p hp => absurd hp List.not_mem_nil
  · exact fun _ p hp => absurd hp List.not_mem_nil

variable [DecidableEq I] {s next : GroupCommit I} {i : I}

section

variable (h : s.Channels)
include h

theorem Channels.update {call : Option SyncCall}
    (hold : ∀ c, s.calls i = some c → c.phase ≠ .leading)
    (hnew : ∀ c ∈ call, c.phase ≠ .leading ∧
      ∀ ch, c.phase = .waiting ch → s.syncInProgress = true ∧ ch = s.syncWaitCh) :
    Channels { s with calls := Function.update s.calls i call } := by
  refine ⟨fun j c ch hc hphase => ?_, fun hprogress => ?_, fun j c hc hphase => ?_, h.made, h.opened⟩
  · dsimp only at hc
    by_cases hj : j = i
    · rw [hj, Function.update_self] at hc
      exact Or.inr ((hnew c hc).2 ch hphase)
    · rw [Function.update_of_ne hj] at hc
      exact h.waiting j c ch hc hphase
  · obtain ⟨leader, c, hc, hphase⟩ := h.led hprogress
    have hne : leader ≠ i := fun heq => hold c (heq ▸ hc) hphase
    exact ⟨leader, c, (Function.update_of_ne hne _ _).trans hc, hphase⟩
  · dsimp only at hc ⊢
    have hj : j ≠ i := by
      intro heq
      rw [heq, Function.update_self] at hc
      exact (hnew c hc).1 hphase
    rw [Function.update_of_ne hj] at hc
    obtain ⟨hprogress, honly⟩ := h.leading j c hc hphase
    refine ⟨hprogress, fun k other hother hlead => honly k other ?_ hlead⟩
    have hk : k ≠ i := by
      intro heq
      rw [heq, Function.update_self] at hother
      exact (hnew other hother).1 hlead
    rw [Function.update_of_ne hk] at hother
    exact hother

/-- A caller that becomes the leader while nobody leads keeps the channels in order. -/
theorem Channels.leads (call : SyncCall) (hidle : ¬s.syncInProgress = true) :
    ({ s with syncInProgress := true, syncWaitCh := s.syncWaitCh + 1 }.move i call .leading).Channels := by
  have hnobody (j : I) (c : SyncCall) (hc : s.calls j = some c) : c.phase ≠ .leading :=
    fun hlead => hidle (h.leading j c hc hlead).1
  refine ⟨fun j c ch hc hwaits => ?_, fun _ => ⟨i, _, Function.update_self _ _ _, rfl⟩, fun j c hc hlead => ?_,
    fun ch hch => Nat.le_succ_of_le (h.made ch hch), fun _ hclosed => ?_⟩
  · dsimp only [move] at hc
    by_cases hj : j = i
    · rw [hj, Function.update_self] at hc
      cases hc
      cases hwaits
    · rw [Function.update_of_ne hj] at hc
      exact Or.inl ((h.waiting j c ch hc hwaits).resolve_right fun hopen => hidle hopen.1)
  · dsimp only [move] at hc ⊢
    refine ⟨rfl, fun k other hother hleads => ?_⟩
    have honly (k : I) (other : SyncCall)
        (hother : Function.update s.calls i (some { call with phase := .leading }) k = some other)
        (hleads : other.phase = .leading) : k = i := by
      by_contra hk
      rw [Function.update_of_ne hk] at hother
      exact hnobody k other hother hleads
    rw [honly j c hc hlead, honly k other hother hleads]
  · exact absurd (h.made _ hclosed) (Nat.not_succ_le_self _)

/-- The end of a sync keeps the channels in order, and nobody is blocked then. -/
theorem Channels.endSync {call : SyncCall} (hcall : s.calls i = some call)
    (hphase : call.phase = .leading) (faults : Faults) :
    (s.endSync i faults).Channels ∧ ∀ j, ¬ (s.endSync i faults).Blocked j := by
  obtain ⟨_, honly⟩ := h.leading i call hcall hphase
  have hwaiting (j : I) (c : SyncCall) (ch : ℕ) (hc : (s.endSync i faults).calls j = some c)
      (hwaits : c.phase = .waiting ch) : ch ∈ (s.endSync i faults).closed := by
    dsimp only [GroupCommit.endSync, leave] at hc ⊢
    by_cases hj : j = i
    · rw [hj, Function.update_self] at hc
      cases hc
    · rw [Function.update_of_ne hj] at hc
      rcases h.waiting j c ch hc hwaits with hclosed | ⟨_, hcurrent⟩
      · exact List.mem_cons_of_mem _ hclosed
      · rw [hcurrent]
        exact List.mem_cons_self
  refine ⟨⟨fun j c ch hc hwaits => Or.inl (hwaiting j c ch hc hwaits), Bool.noConfusion, fun j c hc hlead => ?_,
    fun ch hch => ?_, Bool.noConfusion⟩, ?_⟩
  · dsimp only [GroupCommit.endSync, leave] at hc
    by_cases hj : j = i
    · rw [hj, Function.update_self] at hc
      cases hc
    · rw [Function.update_of_ne hj] at hc
      exact absurd (honly j c hc hlead) hj
  · rcases List.mem_cons.mp hch with rfl | hold
    · exact Nat.le_refl _
    · exact h.made ch hold
  · rintro j ⟨c, ch, hc, hwaits, hopen⟩
    exact hopen (hwaiting j c ch hc hwaits)

theorem Channels.step {action : CommitAction I C} (hstep : s.step fmt action = some next) :
    next.Channels := by
  -- a call that is changed was not leading before
  have hother {i : I} {call : SyncCall} (hcall : s.calls i = some call) (hphase : call.phase ≠ .leading) :
      ∀ c, s.calls i = some c → c.phase ≠ .leading := fun c hc => by
    rw [hcall] at hc
    cases hc
    exact hphase
  have hlock {call : SyncCall} (hphase : call.phase = .requested ∨ call.phase = .released) :
      call.phase ≠ .leading := by
    rcases hphase with heq | heq <;> rw [heq] <;> exact SyncPhase.noConfusion
  cases stepped hstep with
  | append | periodicSync | rotate => exact ⟨h.waiting, h.led, h.leading, h.made, h.opened⟩
  | request i hnone =>
    refine h.update (fun c hc => ?_) fun c hc => ?_
    · rw [hnone] at hc
      cases hc
    · cases hc
      exact ⟨SyncPhase.noConfusion, fun ch hch => by cases hch⟩
  | finds i hcall hphase => exact h.update (hother hcall (hlock hphase)) fun c hc => by cases hc
  | waits i hcall hphase _ hprogress =>
    refine h.update (hother hcall (hlock hphase)) fun c hc => ?_
    cases hc
    exact ⟨SyncPhase.noConfusion, fun ch hch => by cases hch; exact ⟨hprogress, rfl⟩⟩
  | leads i _ _ _ hidle => exact h.leads _ hidle
  | receive i hcall hphase =>
    refine h.update (hother hcall (by rw [hphase]; exact SyncPhase.noConfusion)) fun c hc => ?_
    cases hc
    exact ⟨SyncPhase.noConfusion, fun ch hch => by cases hch⟩
  | lead i faults hcall hphase => exact (h.endSync hcall hphase faults).1

/-- A blocked caller waits for the sync in progress, whose leader can always go on. -/
theorem Channels.blocked (hblocked : s.Blocked i) :
    s.syncInProgress = true ∧ ∃ leader, ∀ faults, s.step fmt (.lead leader faults) = some (s.endSync leader faults) := by
  obtain ⟨call, ch, hcall, hphase, hopen⟩ := hblocked
  obtain ⟨hprogress, _⟩ := (h.waiting i call ch hcall hphase).resolve_left hopen
  obtain ⟨leader, c, hc, hlead⟩ := h.led hprogress
  refine ⟨hprogress, leader, fun faults => ?_⟩
  rw [GroupCommit.step, hc]
  exact if_pos ⟨hlead, h.opened hprogress⟩

section

variable (hidle : s.syncInProgress = false) {call : SyncCall} (hcall : s.calls i = some call)
include hidle hcall

/-- A caller that comes to the lock while no sync is in progress returns by its own steps. -/
theorem Channels.returns_from_lock (hphase : call.phase = .requested ∨ call.phase = .released) (faults : Faults) :
    ∃ own next, (∀ action ∈ own, action = .receive i ∨ action = .check i ∨ action = .lead i faults) ∧
      Run (GroupCommit.step fmt) (fun _ _ => True) s own next ∧ next.calls i = none := by
  have hcheck : s.step fmt (.check i) = some (s.checkFrontier i call) := by
    rw [GroupCommit.step, hcall]
    exact if_pos hphase
  rw [GroupCommit.checkFrontier] at hcheck
  by_cases hle : s.wl.lsn ≤ s.wl.durableLSN
  · rw [if_pos hle] at hcheck
    exact ⟨[.check i], _, by simp, .single trivial hcheck, Function.update_self _ _ _⟩
  · rw [if_neg hle, if_neg (by simp [hidle])] at hcheck
    have hlead : (move { s with syncInProgress := true, syncWaitCh := s.syncWaitCh + 1 } i call .leading).step fmt
        (.lead i faults) = some (GroupCommit.endSync
          (move { s with syncInProgress := true, syncWaitCh := s.syncWaitCh + 1 } i call .leading) i faults) := by
      rw [GroupCommit.step, move]
      dsimp only
      rw [Function.update_self]
      exact if_pos ⟨rfl, fun hclosed => Nat.not_succ_le_self _ (h.made _ hclosed)⟩
    exact ⟨[.check i, .lead i faults], _, by simp, .cons trivial hcheck (.single trivial hlead),
      Function.update_self _ _ _⟩

/-- While no sync is in progress every caller that is not between becoming the leader and the sync returns by
its own steps. -/
theorem Channels.returns (faults : Faults) :
    ∃ own next, (∀ action ∈ own, action = .receive i ∨ action = .check i ∨ action = .lead i faults) ∧
      Run (GroupCommit.step fmt) (fun _ _ => True) s own next ∧ next.calls i = none := by
  cases hphase : call.phase with
  | requested => exact h.returns_from_lock hidle hcall (Or.inl hphase) faults
  | released => exact h.returns_from_lock hidle hcall (Or.inr hphase) faults
  | leading => exact absurd (h.leading i call hcall hphase).1 (by simp [hidle])
  | waiting ch =>
    have hclosed := (h.waiting i call ch hcall hphase).resolve_right (by simp [hidle])
    have hreceive : s.step fmt (.receive i) = some (s.move i call .released) := by
      rw [GroupCommit.step, hcall]
      dsimp only
      rw [hphase]
      exact if_pos hclosed
    have hcalls : (s.move i call .released).calls i = some { call with phase := .released } := Function.update_self _ _ _
    obtain ⟨own, next, hown, hrun, hnone⟩ := (h.step hreceive).returns_from_lock hidle hcalls (Or.inr rfl) faults
    refine ⟨.receive i :: own, next, fun action haction => ?_, .cons trivial hreceive hrun, hnone⟩
    rcases List.mem_cons.mp haction with rfl | hrest
    · exact Or.inl rfl
    · exact hown action hrest

end

end

end GroupCommit

/-- In every interleaving of appends, calls of Sync, periodic syncs and rotations, with file operations that
may fail, the entries acknowledged before a call of Sync started survive a crash when it returns nil. A caller
that waits waits for the sync in progress, whose leader can always go on; when that sync ends nobody waits any
more, and while no sync is in progress every caller returns by its own steps. -/
theorem groupCommit_sound [DecidableEq I] (fmt : Format C) (cfg : ForgeConfig) (manifest : Manifest)
    (manifestHash : List UInt8) (limit : Option ℕ) (time : ℤ) (directory : List (ℕ × List UInt8)) (hardState : Option (List UInt8))
    {actions : List (CommitAction I C)} {s : GroupCommit I}
    (hrun : Run (GroupCommit.step fmt) (fun _ _ => True)
      (.new (Forge.init fmt cfg manifest manifestHash limit time directory hardState).1) actions s) :
    (∀ action next call, s.step fmt action = some next → s.returned action = some (call, .returnsNil) →
      ∀ p ∈ call.acked, p.LiesIn next.wl.durable) ∧
    (∀ i, s.Blocked i → s.syncInProgress = true ∧
      ∃ leader, ∀ faults, s.step fmt (.lead leader faults) = some (s.endSync leader faults)) ∧
    (∀ leader faults next, s.step fmt (.lead leader faults) = some next →
      next.syncInProgress = false ∧ ∀ i, ¬ next.Blocked i) ∧
    (s.syncInProgress = false → ∀ i call faults, s.calls i = some call →
      ∃ own next, (∀ action ∈ own, action = .receive i ∨ action = .check i ∨ action = .lead i faults) ∧
        Run (GroupCommit.step fmt) (fun _ _ => True) s own next ∧ next.calls i = none) := by
  obtain ⟨hlsn, hdurable⟩ := Forge.counters_init fmt cfg manifest manifestHash limit time directory hardState
  obtain ⟨hnew, hquiet⟩ := GroupCommit.sound_new (I := I) (hdurable.trans_le (Nat.zero_le _) |>.trans hlsn.ge)
  have hsound : s.Sound :=
    hrun.invariant GroupCommit.Sound (fun _ _ _ h _ hstep => h.step hstep) hnew
  have hchannels : s.Channels :=
    hrun.invariant GroupCommit.Channels (fun _ _ _ h _ hstep => h.step hstep) hquiet
  refine ⟨fun action next call hstep hreturned => hsound.returned hstep hreturned,
    fun i hblocked => hchannels.blocked hblocked, fun leader faults next hstep => ?_,
    fun hidle i call faults hcall => hchannels.returns hidle hcall faults⟩
  cases GroupCommit.stepped hstep with
  | lead _ _ hcall hphase => exact ⟨rfl, (hchannels.endSync hcall hphase faults).2⟩

/-- A command is logged, one caller leads a sync, another one waits for it, and a rotation comes between. -/
def jointSync : List (CommitAction Bool ℕ) :=
  [.append .clear ⟨1, 2⟩ (.log 5), .request false, .check false, .request true, .check true, .rotate .clear 3,
    .lead false .clear, .receive true]

/-- The caller that has waited returns nil, and the command survives a crash. -/
theorem groupCommit_sound_waiting :
    ∃ (s next : GroupCommit Bool) (call : SyncCall),
      Run (GroupCommit.step tallyFormat) (fun _ _ => True) (.new largeForge) jointSync s ∧
      s.step tallyFormat (.check true) = some next ∧
      s.returned (.check true : CommitAction Bool ℕ) = some (call, .returnsNil) ∧ call.acked.length = 1 ∧
      ∀ p ∈ call.acked, p.LiesIn next.wl.durable := by
  obtain ⟨s, hrun, htest⟩ := exists_run_of_check (GroupCommit.step tallyFormat) (fun _ _ => True) (.new largeForge)
    jointSync (fun s : GroupCommit Bool => (s.step tallyFormat (.check true)).isSome &&
      (s.returned (.check true : CommitAction Bool ℕ)).any
        fun r : SyncCall × Reply => decide (r.2 = .returnsNil ∧ r.1.acked.length = 1)) (by decide +kernel)
  rw [Bool.and_eq_true, Option.isSome_iff_exists, Option.any_eq_true] at htest
  obtain ⟨⟨next, hstep⟩, ⟨call, reply⟩, hreturned, hfound⟩ := htest
  obtain ⟨hnil, hlength⟩ := of_decide_eq_true hfound
  dsimp only at hnil hlength
  rw [hnil] at hreturned
  exact ⟨s, next, call, hrun, hstep, hreturned, hlength,
    (groupCommit_sound tallyFormat largeConfig mixedManifest [7] none 0 [] none hrun).1 _ next call hstep hreturned⟩

end SevenDB.Wal
