import SevenDB.ShardManager.LeaderNotifier

/-!
# The gate follows the polls

While the leadership is steady in the sense of the guard, the gate is set to what the last finished
poll has read. A loop that has last seen another value than the gate's is not the only one, and the
gate then has the present leadership. Without the guard a loop can take a change for what it has
always been: its first reading comes after the reading that the gate was set to.
-/

namespace SevenDB.ShardManager

open SevenDB.Common

variable {E : Type}

/-- What holds of a loop; a loop may be the only one that was ever started. -/
def LoopPhase.Sound (isLeader enabled : Bool) (alone : Prop) : LoopPhase → Prop
  | .starting st => st = isLeader
  | .launched => enabled = isLeader
  | .waiting prev => prev = enabled ∨ ¬ alone ∧ enabled = isLeader
  | .polled prev st => (prev = enabled ∨ ¬ alone ∧ enabled = isLeader) ∧ (alone ∨ st = isLeader)
  | .stopped => True

/-- All loops of a controller are sound. -/
def Controller.Sound (s : Controller E) : Prop :=
  ∀ phase ∈ s.loops, phase.Sound s.isLeader s.gate.enabled (s.loops.length = 1)

variable {isLeader enabled : Bool} {alone : Prop} {phase : LoopPhase}

theorem LoopPhase.Sound.enabled_pollSet {prev st : Bool}
    (h : (LoopPhase.polled prev st).Sound isLeader enabled alone) :
    (if st ≠ prev then st else enabled) = st := by
  obtain ⟨hprev, hst⟩ := h
  by_cases hsame : st = prev
  · rw [if_neg (not_not.mpr hsame)]
    rcases hprev with hgate | ⟨halone, hgate⟩
    · rw [← hgate, hsame]
    · rw [hgate, hst.resolve_left halone]
  · rw [if_pos hsame]

/-- Other loops stay sound when the gate is set to the present leadership. -/
theorem LoopPhase.Sound.set_enabled (h : phase.Sound isLeader enabled alone) (halone : ¬ alone) :
    phase.Sound isLeader isLeader alone := by
  cases phase with
  | starting st => exact h
  | launched => rfl
  | waiting prev => exact Or.inr ⟨halone, rfl⟩
  | polled prev st => exact ⟨Or.inr ⟨halone, rfl⟩, h.2⟩
  | stopped => trivial

variable {action : ControllerAction E} {s : Controller E}

/-- An action of a loop leaves it sound, and leaves the gate alone or sets it to the present
leadership unless the loop is the only one. -/
theorem LoopPhase.Sound.act (h : phase.Sound isLeader enabled alone) {next : LoopPhase × Bool}
    (hact : phase.act isLeader enabled action = some next) :
    next.1.Sound isLeader next.2 alone ∧ (next.2 = enabled ∨ alone ∨ next.2 = isLeader) := by
  cases phase with
  | starting st =>
    cases action with
    | startSet i =>
      cases hact
      exact ⟨h, Or.inr (Or.inr h)⟩
    | _ => cases hact
  | launched =>
    cases action with
    | loop i =>
      cases hact
      exact ⟨Or.inl (Eq.symm h), Or.inl rfl⟩
    | _ => cases hact
  | waiting prev =>
    cases action with
    | poll i =>
      cases hact
      exact ⟨⟨h, Or.inr rfl⟩, Or.inl rfl⟩
    | done i =>
      cases hact
      exact ⟨trivial, Or.inl rfl⟩
    | _ => cases hact
  | polled prev st =>
    cases action with
    | pollSet i =>
      cases hact
      have hset := h.enabled_pollSet
      dsimp only
      rw [hset]
      exact ⟨Or.inl rfl, Or.inr h.2⟩
    | _ => cases hact
  | stopped => cases action <;> cases hact

theorem Controller.Sound.actAt {t : Controller E} (h : s.Sound) {i : ℕ} (hstep : s.actAt i action = some t) :
    t.Sound := by
  obtain ⟨acting, hacting, hstep⟩ := Option.bind_eq_some_iff.mp hstep
  obtain ⟨next, hact, rfl⟩ := Option.map_eq_some_iff.mp hstep
  obtain ⟨hnext, hgate⟩ := (h acting (List.mem_of_getElem? hacting)).act hact
  intro phase hphase
  change phase.Sound s.isLeader next.2 ((s.loops.set i next.1).length = 1)
  rw [List.length_set]
  by_cases halone : s.loops.length = 1
  · obtain ⟨only, honly⟩ := List.length_eq_one_iff.mp halone
    have hzero : i = 0 := by
      have hlt := (List.getElem?_eq_some_iff.mp hacting).1
      omega
    change phase ∈ s.loops.set i next.1 at hphase
    rw [honly, hzero, List.set_cons_zero, List.mem_singleton] at hphase
    rw [hphase]
    exact hnext
  · rcases List.mem_or_eq_of_mem_set hphase with hother | rfl
    · rcases hgate with hsame | hone | hleader
      · rw [hsame]
        exact h phase hother
      · exact absurd hone halone
      · rw [hleader]
        exact (h phase hother).set_enabled halone
    · exact hnext

/-- A change of the leadership that the guard admits keeps the controller sound. -/
theorem Controller.Sound.lead (h : s.Sound) {isLeader : Bool} (hsteady : LeadershipSteady s (.lead isLeader)) :
    { s with isLeader := isLeader }.Sound := by
  intro phase hphase
  have hsound := h phase hphase
  rcases hsteady with ⟨halone, hreading⟩ | hsettled
  · have hread := hreading phase hphase
    cases phase with
    | starting st => exact absurd hread id
    | launched => exact absurd hread id
    | waiting prev => exact Or.inl (hsound.resolve_right fun hmany => hmany.1 halone)
    | polled prev st =>
      exact ⟨Or.inl (hsound.1.resolve_right fun hmany => hmany.1 halone), Or.inl halone⟩
    | stopped => trivial
  · have hwaits := hsettled phase hphase
    cases phase with
    | starting st => exact absurd hwaits id
    | launched => exact absurd hwaits id
    | waiting prev => exact Or.inl hwaits
    | polled prev st => exact absurd hwaits id
    | stopped => trivial

/-- A further start that the guard admits keeps the controller sound. -/
theorem Controller.Sound.start (h : s.Sound) (hsteady : LeadershipSteady s .start) :
    { s with loops := s.loops ++ [LoopPhase.starting s.isLeader] }.Sound := by
  intro phase hphase
  rcases List.mem_append.mp hphase with hold | hnew
  · have hmany : ¬ (s.loops ++ [LoopPhase.starting s.isLeader]).length = 1 := by
      have hpos := List.length_pos_of_mem hold
      rw [List.length_append, List.length_singleton]
      omega
    have hsound := h phase hold
    have hfresh := hsteady phase hold
    cases phase with
    | starting st => exact hsound
    | launched => exact hsound
    | waiting prev => exact hsound.imp_right fun hgate => ⟨hmany, hgate.2⟩
    | polled prev st => exact ⟨hsound.1.imp_right fun hgate => ⟨hmany, hgate.2⟩, Or.inr hfresh⟩
    | stopped => trivial
  · rw [List.mem_singleton.mp hnew]
    rfl

theorem Controller.Sound.step {t : Controller E} (h : s.Sound) (hsteady : LeadershipSteady s action)
    (hstep : s.step action = some t) : t.Sound := by
  cases action with
  | lead isLeader =>
    cases hstep
    exact h.lead hsteady
  | wire under =>
    cases hstep
    exact h
  | start =>
    cases hstep
    exact h.start hsteady
  | startSet | loop | poll | pollSet | done => exact h.actAt hstep

theorem Controller.step_pollSet {i : ℕ} {prev st : Bool} (hphase : s.loops[i]? = some (.polled prev st)) :
    s.step (.pollSet i) = some { s with
      loops := s.loops.set i (.waiting st)
      gate := s.gate.setEnabled (if st ≠ prev then st else s.gate.enabled) } := by
  rw [step, actAt, hphase]
  rfl

/-- While the leadership is steady, the gate is open after a finished poll exactly when the poll has
read that the shard leads; and through a closed gate an event is refused and reaches no transport. -/
theorem gate_follows_poll {isLeader : Bool} {under : Option (E → Except SendError Unit)}
    {actions : List (ControllerAction E)} {s t : Controller E}
    (hrun : Run Controller.step LeadershipSteady (.new isLeader under) actions s) {i : ℕ} {prev st : Bool}
    (hphase : s.loops[i]? = some (.polled prev st)) (hstep : s.step (.pollSet i) = some t) :
    t.gate.enabled = st ∧
      ∀ (gate : GatedSender E) (ev : E), gate.enabled = false → ∃ error, gate.send ev = (.error error, []) := by
  have hsound : s.Sound := hrun.invariant Controller.Sound
    (fun _ _ _ h hsteady hstep => h.step hsteady hstep) (fun phase hphase => by cases hphase)
  have hpolled := hsound _ (List.mem_of_getElem? hphase)
  refine ⟨?_, fun gate ev hclosed => ⟨.notLeader, ?_⟩⟩
  · rw [Controller.step_pollSet hphase] at hstep
    cases hstep
    exact hpolled.enabled_pollSet
  · rw [GatedSender.send, if_pos hclosed]

/-- One start, after which the shard comes to lead before the second poll. -/
theorem gate_follows_poll_elected :
    ∃ (actions : List (ControllerAction ℕ)) (s t : Controller ℕ),
      Run Controller.step LeadershipSteady (.new false none) actions s ∧
        s.step (.pollSet 0) = some t ∧ t.gate.enabled = true := by
  obtain ⟨s, hrun, htest⟩ := exists_run_of_check (Controller.step (E := ℕ)) LeadershipSteady (.new false none)
    [.start, .startSet 0, .loop 0, .poll 0, .pollSet 0, .lead true, .poll 0]
    (fun s => decide (s.loops = [.polled false true])) (by decide)
  have hloops : s.loops = [.polled false true] := of_decide_eq_true htest
  have hphase : s.loops[0]? = some (.polled false true) := by rw [hloops]; rfl
  have hstep := Controller.step_pollSet hphase
  exact ⟨_, s, _, hrun, hstep, (gate_follows_poll hrun hphase hstep).1⟩

/-- The shard comes to lead between the reading of a start and the first reading of its loop: the
loop's polls read that it leads, and the gate stays closed. -/
theorem gate_misses_election :
    ∃ (actions : List (ControllerAction ℕ)) (s : Controller ℕ) (t : Controller ℕ),
      Run Controller.step (fun _ _ => True) (.new false none) actions s ∧
        s.loops[0]? = some (.polled true true) ∧ s.step (.pollSet 0) = some t ∧ t.gate.enabled = false := by
  obtain ⟨s, hrun, htest⟩ := exists_run_of_check (Controller.step (E := ℕ)) (fun _ _ => True) (.new false none)
    [.start, .startSet 0, .lead true, .loop 0, .poll 0]
    (fun s => decide (s.loops = [.polled true true] ∧ s.gate.enabled = false)) (by decide)
  obtain ⟨hloops, hclosed⟩ := of_decide_eq_true htest
  have hphase : s.loops[0]? = some (.polled true true) := by rw [hloops]; rfl
  exact ⟨_, s, _, hrun, hphase, Controller.step_pollSet hphase, hclosed⟩

end SevenDB.ShardManager
