import SevenDB.Bucket.AppliedPrefix

/-!
# A read of the apply loop completes

While no append to its bucket begins, a read that started after the appends goes through the whole file. When
its channel is closed, every entry is applied or still in the channel, so all of them are applied when the
read has ended. The loop gets there by its own steps, whatever the others do.
-/

namespace SevenDB.Bucket

open SevenDB.Common

variable {B R : Type*} {paths : BucketPaths B} (fmt : BucketFormat B)

/-- A closed channel has brought all entries, and they are all applied when the read has ended. -/
structure Runtime.Completing (rt : Runtime B) (entries : List (WALEntry B)) : Prop where
  closed : ∀ p ∈ rt.pass, p.closed = true → rt.applied ++ p.channel = entries
  done : rt.pass = none → rt.applied = entries

namespace Runtime.Completing

variable {rt next : Runtime B} {entries : List (WALEntry B)}

/-- A change of the read that closes the channel only when it has brought all entries. -/
theorem onOpen {change : Pass B → Option (Pass B)}
    (hchange : ∀ p q, p ∈ rt.pass → p.closed = false → change p = some q → q.closed = true →
      rt.applied ++ q.channel = entries)
    (hnext : rt.onOpen change = some next) : next.id = rt.id ∧ next.Completing entries := by
  obtain ⟨p, q, hp, hopen, hq, rfl⟩ := Runtime.onOpen_eq_some_iff.mp hnext
  refine ⟨rfl, fun other hother hend => ?_, fun hnone => by cases hnone⟩
  cases hother
  exact hchange p q hp hopen hq hend

theorem startRead (entries : List (WALEntry B)) (hnext : rt.startRead = some next) :
    next.id = rt.id ∧ next.Completing entries := by
  obtain ⟨_, rfl⟩ := Runtime.startRead_eq_some hnext
  refine ⟨rfl, fun p hp hend => ?_, fun hnone => by cases hnone⟩
  cases hp
  cases hend

theorem receive (h : rt.Completing entries) (hnext : rt.receive = some next) :
    next.id = rt.id ∧ next.Completing entries := by
  obtain ⟨p, e, rest, hp, hchannel, rfl⟩ := Runtime.receive_eq_some_iff.mp hnext
  refine ⟨rfl, fun other hother hend => ?_, fun hnone => by cases hnone⟩
  cases hother
  rw [← h.closed p hp hend, hchannel, List.append_assoc]
  rfl

theorem finish (h : rt.Completing entries) (hnext : rt.finish = some next) :
    next.id = rt.id ∧ next.Completing entries := by
  obtain ⟨p, hp, hend, hempty, rfl⟩ := Runtime.finish_eq_some_iff.mp hnext
  refine ⟨rfl, fun other hother => (by cases hother), fun _ => ?_⟩
  rw [← h.closed p hp hend, hempty, List.append_nil]

end Runtime.Completing

/-- What is left to do for a read: to fetch, to take apart, to apply, and to end. -/
def Pass.left (p : Pass B) (visible : List UInt8) : ℕ :=
  3 * (visible.length - p.offset) + 2 * p.fetched.length + p.channel.length + if p.closed then 1 else 2

/-- What is left to do for the read of a loop. -/
def Runtime.left (rt : Runtime B) (visible : List UInt8) : ℕ :=
  match rt.pass with
  | none => 0
  | some p => p.left visible

namespace ApplyState

/-- No append to the bucket of a loop begins, and the loop is neither cancelled nor made anew. -/
def Undisturbed (r : R) (w : ApplyState paths R) : ApplyAction B R → Prop
  | .beginAppend entry _ => entry.bucketID ≠ (w.runtime r).id
  | .newBucket other _ => other ≠ r
  | .cancel other => other ≠ r
  | _ => True

/-- The steps of a loop during a read. -/
def Own (r : R) : ApplyAction B R → Prop
  | .fetch other _ => other = r
  | .takeFrame other => other = r
  | .atEnd other => other = r
  | .receive other => other = r
  | .finish other => other = r
  | _ => False

theorem Own.undisturbed {action : ApplyAction B R} {r : R} (h : Own r action) (w : ApplyState paths R) :
    Undisturbed r w action := by
  cases action with
  | beginAppend entry now => cases h
  | newBucket other b => cases h
  | cancel other => cases h
  | _ => exact trivial

/-- A loop reads the given entries of its bucket, to which no append is going on. -/
structure Completes (w : ApplyState paths R) (r : R) (b : B) (entries : List (WALEntry B)) : Prop where
  id_eq : (w.runtime r).id = b
  idle : ∀ f ∈ w.inFlight, f.entry.bucketID ≠ b
  completed_eq : w.completed b = entries
  completing : (w.runtime r).Completing entries

namespace Completes

variable {fmt} {w next later : ApplyState paths R} {r : R} {b : B} {entries : List (WALEntry B)}

/-- A read that comes to the end of the file has brought all entries. -/
theorem atEnd [DecidableEq B] (h : w.Completes r b entries) (hsound : w.Sound fmt) {p q : Pass B}
    (hp : p ∈ (w.runtime r).pass) (hq : p.atEnd (w.visible fmt (w.runtime r).id) = some q) :
    (w.runtime r).applied ++ q.channel = entries := by
  obtain ⟨taken, hfollows⟩ := (hsound.follows r).pass p hp
  obtain ⟨hentries, hvisible⟩ := visible_eq (hsound.holds b) h.idle
  rw [h.completed_eq] at hentries hvisible
  rw [h.id_eq, hentries] at hfollows
  rw [h.id_eq] at hq
  have hall := hfollows.atEnd hvisible (h.completed_eq ▸ (hsound.holds b).fit) hq
  obtain ⟨_, rfl⟩ := Option.ite_some_none_eq_some.mp hq
  exact hall

variable [DecidableEq R]

section

variable (h : w.Completes r b entries) {other : R}
include h

theorem moves {rt : Runtime B}
    (hrt : other = r → rt.id = (w.runtime r).id ∧ rt.Completing entries) :
    (w.setRuntime other rt).Completes r b entries := by
  by_cases hother : other = r
  · obtain ⟨hid, hcompleting⟩ := hrt hother
    subst hother
    have hself := w.runtime_setRuntime_self other rt
    exact ⟨by rw [hself, hid, h.id_eq], h.idle, h.completed_eq, by rw [hself]; exact hcompleting⟩
  · have hne := w.runtime_setRuntime_of_ne (Ne.symm hother) rt
    exact ⟨by rw [hne, h.id_eq], h.idle, h.completed_eq, by rw [hne]; exact h.completing⟩

/-- A step of a loop that, if it is the one that reads, moves its read on. -/
theorem moved {move : Option (Runtime B)}
    (hstep : move.map (w.setRuntime other) = some next)
    (hmove : other = r → ∀ rt, move = some rt → rt.id = (w.runtime r).id ∧ rt.Completing entries) :
    next.Completes r b entries := by
  obtain ⟨rt, hrt, rfl⟩ := Option.map_eq_some_iff.mp hstep
  exact h.moves fun heq => hmove heq rt hrt

/-- A change of a read that closes the channel only when all entries were brought. -/
theorem onOpen {change : Pass B → Option (Pass B)}
    (hstep : ((w.runtime other).onOpen change).map (w.setRuntime other) = some next)
    (hchange : other = r → ∀ p q, p ∈ (w.runtime r).pass → p.closed = false → change p = some q →
      q.closed = true → (w.runtime r).applied ++ q.channel = entries) :
    next.Completes r b entries := by
  refine h.moved hstep fun heq rt hrt => ?_
  rw [heq] at hrt
  exact Runtime.Completing.onOpen (hchange heq) hrt

end

variable [DecidableEq B]

theorem step (h : w.Completes r b entries) (hsound : w.Sound fmt) {action : ApplyAction B R}
    (hallowed : Undisturbed r w action) (hstep : w.step fmt action = some next) : next.Completes r b entries := by
  cases action with
  | beginAppend entry now =>
    obtain ⟨_, rfl⟩ := Option.ite_some_none_eq_some.mp hstep
    refine ⟨h.id_eq, fun f hf => ?_, h.completed_eq, h.completing⟩
    cases hf
    rw [← h.id_eq]
    exact hallowed
  | reveal count =>
    obtain ⟨f, hf, rfl⟩ := Option.map_eq_some_iff.mp hstep
    refine ⟨h.id_eq, fun g hg => ?_, h.completed_eq, h.completing⟩
    cases hg
    exact h.idle f hf
  | endAppend =>
    obtain ⟨f, hf, hend⟩ := Option.bind_eq_some_iff.mp hstep
    obtain ⟨_, rfl⟩ := Option.ite_some_none_eq_some.mp hend
    refine ⟨h.id_eq, fun g hg => (by cases hg), ?_, h.completing⟩
    exact (Function.update_of_ne (h.idle f hf).symm _ _).trans h.completed_eq
  | reopen =>
    obtain ⟨_, rfl⟩ := Option.ite_some_none_eq_some.mp hstep
    exact ⟨h.id_eq, h.idle, h.completed_eq, h.completing⟩
  | newBucket other b =>
    cases hstep
    exact h.moves fun heq => absurd heq hallowed
  | startRead other =>
    obtain ⟨_, hstart⟩ := Option.ite_none_right_eq_some.mp hstep
    obtain ⟨rt, hrt, rfl⟩ := Option.map_eq_some_iff.mp hstart
    have hmoved : (w.setRuntime other rt).Completes r b entries := h.moves fun heq => by
      rw [heq] at hrt
      exact Runtime.Completing.startRead entries hrt
    exact ⟨hmoved.id_eq, hmoved.idle, hmoved.completed_eq, hmoved.completing⟩
  | fetch other count =>
    refine h.onOpen hstep fun _ p q _ hopen hq hend => ?_
    cases hq
    exact absurd (hopen.symm.trans hend) (by decide)
  | takeFrame other =>
    refine h.onOpen hstep fun _ p q hp hopen hq hend => ?_
    have hseen := hsound.seen (w.runtime r).id
    obtain ⟨taken, hfollows⟩ := (hsound.follows r).pass p hp
    have hclosed := (hfollows.takeFrame hseen.isPrefix hseen.fit hseen.numbered hq).2
    exact absurd (hopen.symm.trans (hclosed.symm.trans hend)) (by decide)
  | atEnd other =>
    refine h.onOpen hstep fun heq p q hp _ hq _ => ?_
    rw [heq] at hq
    exact h.atEnd hsound hp hq
  | cancel other => exact h.moved hstep fun heq => absurd heq hallowed
  | receive other =>
    refine h.moved hstep fun heq rt hrt => ?_
    rw [heq] at hrt
    exact h.completing.receive hrt
  | finish other =>
    refine h.moved hstep fun heq rt hrt => ?_
    rw [heq] at hrt
    exact h.completing.finish hrt

theorem run (h : w.Completes r b entries) (hsound : w.Sound fmt) {actions : List (ApplyAction B R)}
    (hrun : Run (ApplyState.step fmt) (Undisturbed r) w actions later) :
    later.Completes r b entries ∧ later.Sound fmt := by
  induction hrun with
  | nil => exact ⟨h, hsound⟩
  | cons hallowed hstep _ ih => exact ih (h.step hsound hallowed hstep) (hsound.step hstep)

end Completes

/-- A read that starts when no append is going on reads all entries of its bucket. -/
theorem Sound.completes [DecidableEq B] [DecidableEq R] {fmt} {w started : ApplyState paths R} (h : w.Sound fmt) {r : R}
    (hstart : w.step fmt (.startRead r) = some started) :
    w.appended fmt (w.runtime r).id = w.completed (w.runtime r).id ∧
      started.Completes r (w.runtime r).id (w.completed (w.runtime r).id) := by
  obtain ⟨hidle, hread⟩ := Option.ite_none_right_eq_some.mp hstart
  obtain ⟨rt, hrt, rfl⟩ := Option.map_eq_some_iff.mp hread
  have hnone : ∀ f ∈ w.inFlight, f.entry.bucketID ≠ (w.runtime r).id := fun f hf => by
    rw [hidle] at hf
    cases hf
  obtain ⟨hid, hcompleting⟩ := Runtime.Completing.startRead (w.completed (w.runtime r).id) hrt
  have hself := w.runtime_setRuntime_self r rt
  refine ⟨(visible_eq (h.holds _) hnone).1, ?_, hnone, rfl, ?_⟩
  · exact (congrArg Runtime.id hself).trans hid
  · exact hself.symm ▸ hcompleting

section Progress

variable [DecidableEq B] [DecidableEq R] {w later : ApplyState paths R} {r : R}

/-- What is left to do for the read of a loop. -/
def left (w : ApplyState paths R) (r : R) : ℕ :=
  (w.runtime r).left (w.visible fmt (w.runtime r).id)

theorem exists_less {move : Option (Runtime B)} {rt : Runtime B} (hmove : move = some rt)
    (hid : rt.id = (w.runtime r).id)
    (hless : rt.left (w.visible fmt (w.runtime r).id) < (w.runtime r).left (w.visible fmt (w.runtime r).id)) :
    ∃ next, move.map (w.setRuntime r) = some next ∧ left fmt next r < left fmt w r := by
  refine ⟨w.setRuntime r rt, by rw [hmove, Option.map_some], ?_⟩
  rw [left, left, runtime_setRuntime_self, hid]
  exact hless

theorem exists_less_onOpen {p q : Pass B} (hp : (w.runtime r).pass = some p) (hopen : p.closed = false)
    (change : Pass B → Option (Pass B)) (hchange : change p = some q)
    (hless : q.left (w.visible fmt (w.runtime r).id) < p.left (w.visible fmt (w.runtime r).id)) :
    ∃ next, ((w.runtime r).onOpen change).map (w.setRuntime r) = some next ∧ left fmt next r < left fmt w r := by
  refine exists_less fmt (Runtime.onOpen_eq_some_iff.mpr ⟨p, q, hp, hopen, hchange, rfl⟩) rfl ?_
  rw [Runtime.left, Runtime.left, hp]
  exact hless

variable {fmt}

/-- A read with an empty channel that is open takes a frame apart, fetches, or comes to the end. -/
theorem Sound.exists_reading_step (h : w.Sound fmt) {p : Pass B} (hp : (w.runtime r).pass = some p)
    (hopen : p.closed = false) (hchannel : p.channel = []) :
    ∃ action next, Own r action ∧ w.step fmt action = some next ∧ left fmt next r < left fmt w r := by
  cases hnext : sizeFirst.next p.fetched with
  | some found =>
    obtain ⟨f, rest⟩ := found
    obtain ⟨taken, hfollows⟩ := (h.follows r).pass p hp
    have hseen := h.seen (w.runtime r).id
    obtain ⟨e, _, rfl, hfetched⟩ := hfollows.next_eq_some hseen.isPrefix hseen.fit hnext
    have hlength : p.fetched.length = 8 + (fmt.json.encode e).length + rest.length := by
      rw [hfetched, List.length_append, FrameLayout.length_frame]
    have htake := Pass.Follows.takeFrame_eq hnext
    have hroom : p.channel.length < channelSize := by rw [hchannel, List.length_nil]; decide
    by_cases hskip : e.commitIndex < p.fromCommitIndex
    · rw [if_pos hskip] at htake
      obtain ⟨next, hstep, hless⟩ := exists_less_onOpen fmt hp hopen (Pass.takeFrame fmt) htake
        (by simp only [Pass.left, hlength]; omega)
      exact ⟨.takeFrame r, next, rfl, hstep, hless⟩
    · rw [if_neg hskip, if_pos hroom] at htake
      obtain ⟨next, hstep, hless⟩ := exists_less_onOpen fmt hp hopen (Pass.takeFrame fmt) htake
        (by simp only [Pass.left, hlength, List.length_append, List.length_singleton]; omega)
      exact ⟨.takeFrame r, next, rfl, hstep, hless⟩
  | none =>
    by_cases hend : (w.visible fmt (w.runtime r).id).length ≤ p.offset
    · have hclose : p.atEnd (w.visible fmt (w.runtime r).id) = some { p with closed := true } :=
        if_pos ⟨hnext, hend⟩
      obtain ⟨next, hstep, hless⟩ := exists_less_onOpen fmt hp hopen (fun p => p.atEnd _) hclose
        (by simp [Pass.left, hopen])
      exact ⟨.atEnd r, next, rfl, hstep, hless⟩
    · obtain ⟨next, hstep, hless⟩ := exists_less_onOpen fmt hp hopen
        (fun p => some (p.fetch (w.visible fmt (w.runtime r).id) (w.visible fmt (w.runtime r).id).length))
        rfl (by
          simp only [Pass.left, Pass.fetch, List.length_append, List.length_take, List.length_drop]
          omega)
      exact ⟨.fetch r (w.visible fmt (w.runtime r).id).length, next, rfl, hstep, hless⟩

/-- As long as a read is going on, the loop has a step that leaves less to do. -/
theorem Sound.exists_own_step (h : w.Sound fmt) {p : Pass B} (hp : (w.runtime r).pass = some p) :
    ∃ action next, Own r action ∧ w.step fmt action = some next ∧ left fmt next r < left fmt w r := by
  cases hchannel : p.channel with
  | cons e rest =>
    have hmove := Runtime.receive_eq_some_iff.mpr ⟨p, e, rest, hp, hchannel, rfl⟩
    obtain ⟨next, hstep, hless⟩ := exists_less fmt hmove rfl (by
      simp only [Runtime.left, hp, Pass.left, hchannel, List.length_cons]
      omega)
    exact ⟨.receive r, next, rfl, hstep, hless⟩
  | nil =>
    by_cases hclosed : p.closed = true
    · have hmove := Runtime.finish_eq_some_iff.mpr ⟨p, hp, hclosed, hchannel, rfl⟩
      obtain ⟨next, hstep, hless⟩ := exists_less fmt hmove rfl (by
        simp only [Runtime.left, hp, Pass.left, if_pos hclosed]
        omega)
      exact ⟨.finish r, next, rfl, hstep, hless⟩
    · exact h.exists_reading_step hp (eq_false_of_ne_true hclosed) hchannel

theorem Sound.exists_finish (h : w.Sound fmt) (r : R) :
    ∃ own finished, Run (ApplyState.step fmt) (fun _ action => Own r action) w own finished ∧
      (finished.runtime r).pass = none := by
  generalize hleft : left fmt w r = count
  induction count using Nat.strong_induction_on generalizing w with
  | _ count ih =>
    cases hp : (w.runtime r).pass with
    | none => exact ⟨[], w, .nil w, hp⟩
    | some p =>
      obtain ⟨action, next, hown, hstep, hless⟩ := h.exists_own_step hp
      obtain ⟨own, finished, hrun, hpass⟩ := ih _ (hleft ▸ hless) (h.step hstep) rfl
      exact ⟨action :: own, finished, .cons hown hstep hrun, hpass⟩

end Progress

end ApplyState

section ApplyLoop

variable [DecidableEq B] [DecidableEq R]

/-- In every run the entries that a loop has applied are the first ones appended to its bucket, with the commit
indices from one on. A read that starts when no append is going on has applied all entries of its bucket when
it has ended, as long as no append to the bucket begins and the loop is not cancelled, and it ends by the
loop's own steps. -/
theorem apply_loop_exact_prefix (ids : R → B) {actions : List (ApplyAction B R)} {w : ApplyState paths R}
    (hrun : Run (ApplyState.step fmt) (fun _ _ => True) (.new ids) actions w) :
    (∀ r, (w.runtime r).applied <+: w.appended fmt (w.runtime r).id ∧
      (w.runtime r).applied.map (·.commitIndex) = List.range' 1 (w.runtime r).applied.length) ∧
    ∀ r started, w.step fmt (.startRead r) = some started →
      ∀ more later, Run (ApplyState.step fmt) (ApplyState.Undisturbed r) started more later →
        ((later.runtime r).pass = none → (later.runtime r).applied = w.appended fmt (w.runtime r).id) ∧
        ∃ own finished, Run (ApplyState.step fmt) (fun _ action => ApplyState.Own r action) later own finished ∧
          (finished.runtime r).pass = none ∧ (finished.runtime r).applied = w.appended fmt (w.runtime r).id := by
  have hsound : w.Sound fmt :=
    hrun.invariant (ApplyState.Sound fmt) (fun _ _ _ h _ hstep => h.step hstep) (.new ids)
  constructor
  · intro r
    have hfollows := hsound.follows r
    have hbegins : (w.runtime r).applied <+: w.appended fmt (w.runtime r).id := by
      rw [hfollows.applied_eq]
      exact List.take_prefix _ _
    exact ⟨hbegins, (hsound.seen _).numbered.of_isPrefix hbegins⟩
  · intro r started hstart more later hmore
    obtain ⟨hall, hcompletes⟩ := hsound.completes hstart
    obtain ⟨hlater, hsoundLater⟩ := hcompletes.run (hsound.step hstart) hmore
    obtain ⟨own, finished, hown, hpass⟩ := hsoundLater.exists_finish r
    have hundisturbed : Run (ApplyState.step fmt) (ApplyState.Undisturbed r) later own finished :=
      hown.mono fun state action haction => haction.undisturbed state
    obtain ⟨hfinished, _⟩ := hlater.run hsoundLater hundisturbed
    rw [hall]
    exact ⟨hlater.completing.done, own, finished, hown, hpass, hfinished.completing.done hpass⟩

/-- Two appends to one bucket and one to another. The loop of the first bucket reads while five bytes of the
second append can be seen, and the log is closed and opened anew. -/
def interleavedActions : List (ApplyAction Bool Bool) :=
  [.beginAppend (plainEntry true [5]) 1, .reveal 1000, .endAppend, .startRead true, .fetch true 4,
    .beginAppend (plainEntry true [6]) 2, .reveal 5, .fetch true 1000, .takeFrame true, .receive true, .atEnd true,
    .finish true, .reveal 1000, .endAppend, .beginAppend (plainEntry false [7]) 3, .reveal 1000, .endAppend, .reopen]

/-- The loop has applied the first entry, and its next read applies both. -/
theorem apply_loop_exact_prefix_interleaved :
    ∃ w : ApplyState twoPaths Bool, Run (ApplyState.step tallyFormat) (fun _ _ => True) (.new id) interleavedActions w ∧
      (w.runtime true).applied.map (·.payload) = [[5]] ∧
      (w.runtime true).applied <+: w.appended tallyFormat true ∧
      ∃ started own finished, w.step tallyFormat (.startRead true) = some started ∧
        Run (ApplyState.step tallyFormat) (fun _ action => ApplyState.Own true action) started own finished ∧
        (finished.runtime true).applied.map (·.payload) = [[5], [6]] := by
  refine exists_run_imp _ (fun w : ApplyState twoPaths Bool => (w.runtime true).applied.map (·.payload) = [[5]] ∧
      (w.runtime true).id = true ∧ (w.appended tallyFormat true).map (·.payload) = [[5], [6]] ∧
      (w.step tallyFormat (.startRead true)).isSome = true) (by decide +kernel) (fun _ _ => id)
    fun w hrun ⟨hpayloads, hid, hall, hsome⟩ => ?_
  obtain ⟨started, hstart⟩ := Option.isSome_iff_exists.mp hsome
  obtain ⟨hbegins, hreads⟩ := apply_loop_exact_prefix tallyFormat id hrun
  obtain ⟨_, own, finished, hown, _, hfinished⟩ := hreads true started hstart [] started (.nil started)
  have hfirst := (hbegins true).1
  rw [hid] at hfirst hfinished
  refine ⟨hpayloads, hfirst, started, own, finished, hstart, hown, ?_⟩
  rw [hfinished, hall]

end ApplyLoop

end SevenDB.Bucket
