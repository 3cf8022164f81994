import SevenDB.Emission.World

/-!
# A tick with nothing in between

The function `processTick` and the machine of its sections describe the same scan: run without
interruption, and with the outcome of each send fixed by the event sent, the sections lead from
the start of a tick to the result of the function. In particular every tick can be completed.
-/

namespace SevenDB.Emission

open SevenDB.Common

/-- Only sections of the running tick are executed, with the given outcomes of sends. -/
def SendsAs (send : DataEvent → SendOutcome) (w : World) (action : Action) : Prop :=
  ∃ outcome, action = .tick outcome ∧
    ∀ sub e entries subs lastSent resumeIdx, w.pc = .sending sub e entries subs lastSent resumeIdx →
      outcome = send (e.toEvent sub)

section Sections

variable {send : DataEvent → SendOutcome} {finish : World} {rest : List Action} (w : World)

theorem Run.quietSection (pc : TickPc) {after : TickPc} {ntf : Notifier} (hbusy : pc ≠ .idle)
    (hsilent : pc.sendingTo = none)
    (heffect : w.ntf.tickStep w.mgr .delivered pc = ⟨ntf, after, [], []⟩)
    (hrest : Run World.step (SendsAs send) { w with ntf := ntf, pc := after } rest finish) :
    Run World.step (SendsAs send) { w with pc := pc } (.tick .delivered :: rest) finish := by
  refine .cons ⟨.delivered, rfl, ?_⟩ ?_ hrest
  · intro sub e entries subs lastSent resumeIdx hpc
    change pc = _ at hpc
    rw [hpc] at hsilent
    cases hsilent
  · rw [World.step, if_neg hbusy, World.tickOnce]
    simp only [heffect, List.append_nil]

variable (sub : String) (e : OutboxEntry) (entries : List OutboxEntry) (subs : List String)
  (lastSent : EmitSeq) (resumeIdx : UInt64)

/-- Clear the resume point of the entry marked as sent, and go on with the next entry. -/
theorem Run.clearSection
    (hrest : Run World.step (SendsAs send)
      { w with ntf := w.ntf.clearResume sub e resumeIdx, pc := .visit sub entries subs } rest finish) :
    Run World.step (SendsAs send) { w with pc := .marked sub e entries subs resumeIdx }
      (.tick .delivered :: rest) finish :=
  Run.quietSection w (.marked sub e entries subs resumeIdx) (by simp) rfl rfl hrest

/-- Mark the entry as sent, clear its resume point, and go on with the next entry. -/
theorem Run.markSections
    (hrest : Run World.step (SendsAs send)
      { w with
        ntf := (w.ntf.markSent sub e lastSent).clearResume sub e resumeIdx
        pc := .visit sub entries subs } rest finish) :
    Run World.step (SendsAs send) { w with pc := .sendReturned sub e entries subs lastSent resumeIdx }
      (.tick .delivered :: .tick .delivered :: rest) finish :=
  Run.quietSection w (.sendReturned sub e entries subs lastSent resumeIdx) (by simp) rfl rfl
    (Run.clearSection { w with ntf := w.ntf.markSent sub e lastSent } sub e entries subs resumeIdx hrest)

/-- Send the entry with success, mark it, and go on with the next entry. -/
theorem Run.sendSections (hsend : send (e.toEvent sub) = .delivered)
    (hrest : Run World.step (SendsAs send)
      { w with
        ntf := (w.ntf.markSent sub e lastSent).clearResume sub e resumeIdx
        pc := .visit sub entries subs
        reached := w.reached ++ [e.toEvent sub]
        sent := w.sent ++ [e.toEvent sub] } rest finish) :
    Run World.step (SendsAs send) { w with pc := .sending sub e entries subs lastSent resumeIdx }
      (.tick .delivered :: .tick .delivered :: .tick .delivered :: rest) finish := by
  refine .cons ⟨.delivered, rfl, ?_⟩ rfl (Run.markSections
    { w with reached := w.reached ++ [e.toEvent sub], sent := w.sent ++ [e.toEvent sub] } sub e entries subs
    lastSent resumeIdx hrest)
  rintro _ _ _ _ _ _ ⟨⟩
  exact hsend.symm

theorem exists_failSection (hsend : send (e.toEvent sub) ≠ .delivered) :
    ∃ reached, Run World.step (SendsAs send)
      { w with pc := .sending sub e entries subs lastSent resumeIdx } [.tick (send (e.toEvent sub))]
      { w with pc := .scan subs, reached := reached } := by
  have hstep : ∃ reached, World.step { w with pc := .sending sub e entries subs lastSent resumeIdx }
      (.tick (send (e.toEvent sub))) = some { w with pc := .scan subs, reached := reached } := by
    cases hcase : send (e.toEvent sub) with
    | delivered => exact absurd hcase hsend
    | failedDelivered => exact ⟨w.reached ++ [e.toEvent sub], by simp [World.step, World.tickOnce, Notifier.tickStep]⟩
    | failedLost | noSender => exact ⟨w.reached, by simp [World.step, World.tickOnce, Notifier.tickStep]⟩
  obtain ⟨reached, hfail⟩ := hstep
  refine ⟨reached, Run.single ⟨_, rfl, ?_⟩ hfail⟩
  rintro _ _ _ _ _ _ ⟨⟩
  rfl

end Sections

/-- The sections of one visit lead to the result of `processEntries`. -/
theorem processEntries_run (send : DataEvent → SendOutcome) (sub : String) (subs : List String)
    (w : World) (entries : List OutboxEntry) :
    ∃ actions reached,
      Run World.step (SendsAs send) { w with pc := .visit sub entries subs } actions
        { w with
          pc := .scan subs
          ntf := (Notifier.processEntries send sub w.ntf entries).1
          sent := w.sent ++ (Notifier.processEntries send sub w.ntf entries).2
          reached := reached } := by
  induction entries generalizing w with
  | nil =>
    refine ⟨[.tick .delivered], w.reached, Run.quietSection w (.visit sub [] subs) (by simp) rfl rfl ?_⟩
    rw [Notifier.processEntries, List.append_nil]
    exact .nil _
  | cons e entries ih =>
    let read := TickPc.watermarkRead sub e entries subs (w.ntf.lastSent sub)
    have hread {actions : List Action} {finish : World}
        (hrest : Run World.step (SendsAs send) { w with pc := read } actions finish) :
        Run World.step (SendsAs send) { w with pc := .visit sub (e :: entries) subs }
          (.tick .delivered :: actions) finish :=
      Run.quietSection w (.visit sub (e :: entries) subs) (by simp) rfl rfl hrest
    rw [Notifier.processEntries]
    by_cases hold : e.seq.notAfter (w.ntf.lastSent sub) = true
    · have hskip : w.ntf.tickStep w.mgr .delivered read = ⟨w.ntf, .visit sub entries subs, [], []⟩ := by
        rw [Notifier.tickStep, if_pos hold]
      obtain ⟨actions, reached, hrun⟩ := ih w
      rw [if_pos hold]
      exact ⟨_, reached, hread (Run.quietSection w read (by simp [read]) rfl hskip hrun)⟩
    rw [if_neg hold]
    by_cases hbelow : (w.ntf.resumeIdx sub > 0 && e.seq.commitIndex < w.ntf.resumeIdx sub) = true
    · have hskip : w.ntf.tickStep w.mgr .delivered read = ⟨w.ntf, .visit sub entries subs, [], []⟩ := by
        rw [Notifier.tickStep, if_neg hold, if_pos hbelow]
      obtain ⟨actions, reached, hrun⟩ := ih w
      rw [if_pos hbelow]
      exact ⟨_, reached, hread (Run.quietSection w read (by simp [read]) rfl hskip hrun)⟩
    rw [if_neg hbelow]
    have hchoose : w.ntf.tickStep w.mgr .delivered read =
        ⟨w.ntf, .sending sub e entries subs (w.ntf.lastSent sub) (w.ntf.resumeIdx sub), [], []⟩ := by
      rw [Notifier.tickStep, if_neg hold, if_neg hbelow]
    by_cases hsend : send (e.toEvent sub) = .delivered
    · let marked := (w.ntf.markSent sub e (w.ntf.lastSent sub)).clearResume sub e (w.ntf.resumeIdx sub)
      obtain ⟨actions, reached, hrun⟩ := ih
        { w with
          ntf := marked
          reached := w.reached ++ [e.toEvent sub]
          sent := w.sent ++ [e.toEvent sub] }
      rw [if_pos hsend]
      rw [List.append_assoc, List.singleton_append] at hrun
      exact ⟨_, reached, hread (Run.quietSection w read (by simp [read]) rfl hchoose
        (Run.sendSections w sub e entries subs _ _ hsend hrun))⟩
    · obtain ⟨reached, hfail⟩ := exists_failSection w sub e entries subs (w.ntf.lastSent sub)
        (w.ntf.resumeIdx sub) hsend
      rw [if_neg hsend, List.append_nil]
      exact ⟨_, reached, hread (Run.quietSection w read (by simp [read]) rfl hchoose hfail)⟩

/-- The sections of a whole tick lead to the result of `processTick`. -/
theorem processTick_run (send : DataEvent → SendOutcome) (w : World) (subs : List String) :
    ∃ actions reached,
      Run World.step (SendsAs send) { w with pc := .scan subs } actions
        { w with
          pc := .idle
          ntf := (Notifier.processTick send w.mgr w.ntf subs).1
          sent := w.sent ++ (Notifier.processTick send w.mgr w.ntf subs).2
          reached := reached } := by
  induction subs generalizing w with
  | nil =>
    refine ⟨[.tick .delivered], w.reached, Run.quietSection w (.scan []) (by simp) rfl rfl ?_⟩
    rw [Notifier.processTick, List.append_nil]
    exact .nil _
  | cons sub subs ih =>
    obtain ⟨first, middle, hvisit⟩ := processEntries_run send sub subs w (w.mgr.pending sub)
    let visited := Notifier.processEntries send sub w.ntf (w.mgr.pending sub)
    obtain ⟨second, reached, htick⟩ :=
      ih { w with ntf := visited.1, sent := w.sent ++ visited.2, reached := middle }
    rw [List.append_assoc] at htick
    exact ⟨.tick .delivered :: (first ++ second), reached,
      Run.quietSection w (.scan (sub :: subs)) (by simp) rfl rfl (hvisit.append htick)⟩

/-- A visit can be completed, and the tick with it, while all sends succeed. -/
theorem exists_visit_end (w : World) (sub : String) (entries : List OutboxEntry) (subs : List String) :
    ∃ actions finish, Run World.step (SendsAs fun _ => .delivered) { w with pc := .visit sub entries subs }
      actions finish ∧ finish.pc = .idle ∧ finish.mgr = w.mgr := by
  obtain ⟨first, middle, hvisit⟩ := processEntries_run (fun _ => .delivered) sub subs w entries
  obtain ⟨second, reached, htick⟩ := processTick_run (fun _ => .delivered)
    { w with
      ntf := (Notifier.processEntries (fun _ => .delivered) sub w.ntf entries).1
      sent := w.sent ++ (Notifier.processEntries (fun _ => .delivered) sub w.ntf entries).2
      reached := middle } subs
  exact ⟨first ++ second, _, hvisit.append htick, rfl, rfl⟩

/-- From wherever a tick stands, it can be completed while all sends succeed. -/
theorem exists_tick_end (w : World) :
    ∃ actions finish, Run World.step (SendsAs fun _ => .delivered) w actions finish ∧
      finish.pc = .idle ∧ finish.mgr = w.mgr := by
  obtain ⟨mgr, ntf, pc, written, reached, sent, accepted, resumes⟩ := w
  let w : World := ⟨mgr, ntf, .idle, written, reached, sent, accepted, resumes⟩
  have hsending (sub : String) (e : OutboxEntry) (entries : List OutboxEntry) (subs : List String)
      (lastSent : EmitSeq) (resumeIdx : UInt64) : ∃ actions finish,
      Run World.step (SendsAs fun _ => .delivered)
        { w with pc := .sending sub e entries subs lastSent resumeIdx } actions finish ∧
        finish.pc = .idle ∧ finish.mgr = mgr := by
    obtain ⟨actions, finish, hrun, hend⟩ := exists_visit_end
      { w with
        ntf := (ntf.markSent sub e lastSent).clearResume sub e resumeIdx
        reached := reached ++ [e.toEvent sub]
        sent := sent ++ [e.toEvent sub] } sub entries subs
    exact ⟨_, finish, Run.sendSections w sub e entries subs lastSent resumeIdx rfl hrun, hend⟩
  cases pc with
  | idle => exact ⟨[], w, .nil w, rfl, rfl⟩
  | scan subs =>
    obtain ⟨actions, reached, hrun⟩ := processTick_run (fun _ => .delivered) w subs
    exact ⟨actions, _, hrun, rfl, rfl⟩
  | visit sub entries subs => exact exists_visit_end w sub entries subs
  | watermarkRead sub e entries subs lastSent =>
    have hmove := ntf.tickStep_move mgr .delivered (.watermarkRead sub e entries subs lastSent)
    generalize heffect : ntf.tickStep mgr .delivered (.watermarkRead sub e entries subs lastSent) =
      effect at hmove
    cases hmove with
    | skip =>
      obtain ⟨actions, finish, hrun, hend⟩ := exists_visit_end w sub entries subs
      exact ⟨_, finish, Run.quietSection w _ (by simp) rfl heffect hrun, hend⟩
    | choose =>
      obtain ⟨actions, finish, hrun, hend⟩ := hsending sub e entries subs lastSent (ntf.resumeIdx sub)
      exact ⟨_, finish, Run.quietSection w _ (by simp) rfl heffect hrun, hend⟩
  | sending sub e entries subs lastSent resumeIdx =>
    exact hsending sub e entries subs lastSent resumeIdx
  | sendReturned sub e entries subs lastSent resumeIdx =>
    obtain ⟨actions, finish, hrun, hend⟩ := exists_visit_end
      { w with ntf := (ntf.markSent sub e lastSent).clearResume sub e resumeIdx } sub entries subs
    exact ⟨_, finish, Run.markSections w sub e entries subs lastSent resumeIdx hrun, hend⟩
  | marked sub e entries subs resumeIdx =>
    obtain ⟨actions, finish, hrun, hend⟩ := exists_visit_end
      { w with ntf := ntf.clearResume sub e resumeIdx } sub entries subs
    exact ⟨_, finish, Run.clearSection w sub e entries subs resumeIdx hrun, hend⟩

end SevenDB.Emission
