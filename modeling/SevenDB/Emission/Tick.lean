import SevenDB.Emission.Notifier

/-!
# What one section of a tick can do

The sections of a tick are listed once, with their guards in terms of positions, and then
seen from one subscription: which entries it still has to come to, which positions it may
compare entries with or record as sent, and which events go out. Every invariant of the
emission system over the steps of a tick is derived from these facts.
-/

namespace SevenDB.Emission

open SevenDB.Common

/-- The entries of a subscription that the running tick has neither skipped nor sent. -/
def TickPc.todo (sub : String) : TickPc → List OutboxEntry
  | .visit current entries _ => if current = sub then entries else []
  | .watermarkRead current e entries _ _ => if current = sub then e :: entries else []
  | .sending current e entries _ _ _ => if current = sub then e :: entries else []
  | .sendReturned current _ entries _ _ _ => if current = sub then entries else []
  | .marked current _ entries _ _ => if current = sub then entries else []
  | _ => []

/-- The positions held by the running tick that an entry of the subscription is compared with
or that will be recorded as sent. -/
def TickPc.marks (sub : String) : TickPc → List EmitSeq
  | .watermarkRead current _ _ _ lastSent => if current = sub then [lastSent] else []
  | .sending current _ _ _ lastSent _ => if current = sub then [lastSent] else []
  | .sendReturned current e _ _ _ _ => if current = sub then [e.seq] else []
  | _ => []

/-- The subscription being visited. -/
def TickPc.current : TickPc → Option String
  | .idle => none
  | .scan _ => none
  | .visit sub _ _ => some sub
  | .watermarkRead sub _ _ _ _ => some sub
  | .sending sub _ _ _ _ _ => some sub
  | .sendReturned sub _ _ _ _ _ => some sub
  | .marked sub _ _ _ _ => some sub

/-- The subscription to which an event is being sent. -/
def TickPc.sendingTo : TickPc → Option String
  | .sending sub _ _ _ _ _ => some sub
  | _ => none

/-- An event is being sent to a subscription at one program point only. -/
theorem TickPc.sendingTo_eq_some {pc : TickPc} {sub : String} (h : pc.sendingTo = some sub) :
    ∃ e entries subs lastSent resumeIdx, pc = .sending sub e entries subs lastSent resumeIdx := by
  cases pc with
  | sending current e entries subs lastSent resumeIdx =>
    cases h
    exact ⟨e, entries, subs, lastSent, resumeIdx, rfl⟩
  | _ => cases h

/-- The subscriptions that the tick has not come to. -/
def TickPc.subsLeft : TickPc → List String
  | .idle => []
  | .scan subs => subs
  | .visit _ _ subs => subs
  | .watermarkRead _ _ _ subs _ => subs
  | .sending _ _ _ subs _ _ => subs
  | .sendReturned _ _ _ subs _ _ => subs
  | .marked _ _ _ subs _ => subs

/-- The sent watermark of a subscription together with the positions held by the tick. -/
def Notifier.marks (n : Notifier) (pc : TickPc) (sub : String) : List EmitSeq :=
  n.lastSent sub :: pc.marks sub

/-- A position in use has reached the entry, or the resume point is above it. -/
def Notifier.Skips (n : Notifier) (pc : TickPc) (sub : String) (e : OutboxEntry) : Prop :=
  (∃ mark ∈ n.marks pc sub, e.seq.position ≤ mark.position) ∨ e.index < (n.resumeIdx sub).toNat

/-- The tick has yet to come to an entry of the subscription. -/
def TickPc.Ahead (pc : TickPc) (sub : String) (e : OutboxEntry) : Prop :=
  sub ∈ pc.subsLeft ∨ e ∈ pc.todo sub

/-- A tick that is not visiting a subscription holds neither entries nor positions of it. -/
theorem TickPc.empty_of_not_current {pc : TickPc} {sub : String} (h : pc.current ≠ some sub) :
    pc.todo sub = [] ∧ pc.marks sub = [] := by
  cases pc with
  | idle | scan => exact ⟨rfl, rfl⟩
  | _ =>
    simp only [TickPc.current, ne_eq, Option.some.injEq] at h
    simp [TickPc.todo, TickPc.marks, h]

variable (n : Notifier) (sub other : String) (e : OutboxEntry)

/-- Marking an entry as sent moves the watermark of its subscription up to it. -/
theorem Notifier.lastSent_markSent (lastSent : EmitSeq) :
    (n.markSent sub e lastSent).lastSent other =
      if other = sub ∧ lastSent.position < e.seq.position then e.seq else n.lastSent other := by
  simp only [Notifier.markSent, Notifier.lastSent, ← EmitSeq.newer_iff]
  by_cases hnewer : e.seq.newer lastSent = true
  · by_cases hother : other = sub
    · subst hother
      simp [hnewer]
    · simp [hnewer, hother]
  · simp [hnewer]

@[simp] theorem Notifier.resumeIdx_markSent (lastSent : EmitSeq) :
    (n.markSent sub e lastSent).resumeIdx other = n.resumeIdx other := by
  unfold Notifier.markSent
  split <;> rfl

@[simp] theorem Notifier.lastSent_clearResume (resumeIdx : UInt64) :
    (n.clearResume sub e resumeIdx).lastSent other = n.lastSent other := by
  unfold Notifier.clearResume
  split <;> rfl

/-- A resume point is cleared once the entry sent is at or past the index read before. -/
theorem Notifier.resumeIdx_clearResume (resumeIdx : UInt64) :
    (n.clearResume sub e resumeIdx).resumeIdx other =
      if other = sub ∧ 0 < resumeIdx ∧ resumeIdx ≤ e.seq.commitIndex then 0
      else n.resumeIdx other := by
  unfold Notifier.clearResume Notifier.resumeIdx
  by_cases hpast : 0 < resumeIdx ∧ resumeIdx ≤ e.seq.commitIndex
  · by_cases hother : other = sub
    · subst hother
      simp [hpast]
    · simp [hpast, hother]
  · simp [hpast]

@[simp] theorem Notifier.ackCh_markSent (e : OutboxEntry) (lastSent : EmitSeq) :
    (n.markSent sub e lastSent).ackCh = n.ackCh := by
  unfold Notifier.markSent
  split <;> rfl

/-- Clearing a resume point leaves the queue of acknowledgments alone. -/
@[simp] theorem Notifier.ackCh_clearResume (e : OutboxEntry) (resumeIdx : UInt64) :
    (n.clearResume sub e resumeIdx).ackCh = n.ackCh := by
  unfold Notifier.clearResume
  split <;> rfl

/-- The sections of a tick, with what is known where they are entered. -/
inductive TickMove (n : Notifier) (mgr : Manager) (outcome : SendOutcome) : TickPc → TickEffect → Prop
  | rest : TickMove n mgr outcome .idle ⟨n, .idle, [], []⟩
  | finish : TickMove n mgr outcome (.scan []) ⟨n, .idle, [], []⟩
  | enter (sub : String) (subs : List String) :
      TickMove n mgr outcome (.scan (sub :: subs)) ⟨n, .visit sub (mgr.pending sub) subs, [], []⟩
  | leave (sub : String) (subs : List String) :
      TickMove n mgr outcome (.visit sub [] subs) ⟨n, .scan subs, [], []⟩
  | read (sub : String) (e : OutboxEntry) (entries : List OutboxEntry) (subs : List String) :
      TickMove n mgr outcome (.visit sub (e :: entries) subs)
        ⟨n, .watermarkRead sub e entries subs (n.lastSent sub), [], []⟩
  | skip (sub : String) (e : OutboxEntry) (entries : List OutboxEntry) (subs : List String)
      (lastSent : EmitSeq)
      (hskip : e.seq.position ≤ lastSent.position ∨ e.index < (n.resumeIdx sub).toNat) :
      TickMove n mgr outcome (.watermarkRead sub e entries subs lastSent)
        ⟨n, .visit sub entries subs, [], []⟩
  | choose (sub : String) (e : OutboxEntry) (entries : List OutboxEntry) (subs : List String)
      (lastSent : EmitSeq) (hmark : lastSent.position < e.seq.position)
      (hresume : (n.resumeIdx sub).toNat ≤ e.index) :
      TickMove n mgr outcome (.watermarkRead sub e entries subs lastSent)
        ⟨n, .sending sub e entries subs lastSent (n.resumeIdx sub), [], []⟩
  | send (sub : String) (e : OutboxEntry) (entries : List OutboxEntry) (subs : List String)
      (lastSent : EmitSeq) (resumeIdx : UInt64) (houtcome : outcome = .delivered) :
      TickMove n mgr outcome (.sending sub e entries subs lastSent resumeIdx)
        ⟨n, .sendReturned sub e entries subs lastSent resumeIdx, [e.toEvent sub], [e.toEvent sub]⟩
  | fail (sub : String) (e : OutboxEntry) (entries : List OutboxEntry) (subs : List String)
      (lastSent : EmitSeq) (resumeIdx : UInt64) (houtcome : outcome ≠ .delivered)
      (reached : List DataEvent) (hreached : reached = [] ∨ reached = [e.toEvent sub]) :
      TickMove n mgr outcome (.sending sub e entries subs lastSent resumeIdx)
        ⟨n, .scan subs, reached, []⟩
  | mark (sub : String) (e : OutboxEntry) (entries : List OutboxEntry) (subs : List String)
      (lastSent : EmitSeq) (resumeIdx : UInt64) :
      TickMove n mgr outcome (.sendReturned sub e entries subs lastSent resumeIdx)
        ⟨n.markSent sub e lastSent, .marked sub e entries subs resumeIdx, [], []⟩
  | clear (sub : String) (e : OutboxEntry) (entries : List OutboxEntry) (subs : List String)
      (resumeIdx : UInt64) :
      TickMove n mgr outcome (.marked sub e entries subs resumeIdx)
        ⟨n.clearResume sub e resumeIdx, .visit sub entries subs, [], []⟩

/-- The skip test for resume points compares the indices as numbers. -/
theorem resume_skip_iff (e : OutboxEntry) (resumeIdx : UInt64) :
    (resumeIdx > 0 && e.seq.commitIndex < resumeIdx) = true ↔ e.index < resumeIdx.toNat := by
  simp only [gt_iff_lt, Bool.and_eq_true, decide_eq_true_eq, UInt64.lt_iff_toNat_lt,
    OutboxEntry.index, EmitSeq.index, UInt64.toNat_zero]
  omega

theorem Notifier.tickStep_move (mgr : Manager) (outcome : SendOutcome) (pc : TickPc) :
    TickMove n mgr outcome pc (n.tickStep mgr outcome pc) := by
  cases pc with
  | idle => exact .rest
  | scan subs =>
    cases subs with
    | nil => exact .finish
    | cons sub subs => exact .enter sub subs
  | visit sub entries subs =>
    cases entries with
    | nil => exact .leave sub subs
    | cons e entries => exact .read sub e entries subs
  | watermarkRead sub e entries subs lastSent =>
    simp only [Notifier.tickStep, resume_skip_iff, EmitSeq.notAfter_iff]
    split
    · next hold => exact .skip sub e entries subs lastSent (Or.inl hold)
    · next hnew =>
      split
      · next hbelow => exact .skip sub e entries subs lastSent (Or.inr hbelow)
      · next hpast => exact .choose sub e entries subs lastSent (not_le.mp hnew) (not_lt.mp hpast)
  | sending sub e entries subs lastSent resumeIdx =>
    cases outcome with
    | delivered => exact .send sub e entries subs lastSent resumeIdx rfl
    | failedDelivered =>
      exact .fail sub e entries subs lastSent resumeIdx (by decide) _ (Or.inr rfl)
    | failedLost | noSender => exact .fail sub e entries subs lastSent resumeIdx (by decide) _ (Or.inl rfl)
  | sendReturned sub e entries subs lastSent resumeIdx =>
    exact .mark sub e entries subs lastSent resumeIdx
  | marked sub e entries subs resumeIdx => exact .clear sub e entries subs resumeIdx

section OneSubscription

variable {n : Notifier} {mgr : Manager} {outcome : SendOutcome} {pc : TickPc} {effect : TickEffect}
  (hmove : TickMove n mgr outcome pc effect) (sub : String)
include hmove

/-- A position in use after a section was in use before, or is that of the entry just sent. -/
theorem TickMove.marks_from {mark : EmitSeq} (hmark : mark ∈ effect.notifier.marks effect.pc sub) :
    mark ∈ n.marks pc sub ∨
      ∃ e rest, pc.todo sub = e :: rest ∧ e.toEvent sub ∈ effect.sent ∧ mark = e.seq := by
  cases hmove with
  | mark current e entries subs lastSent resumeIdx =>
    simp only [Notifier.marks, TickPc.marks, Notifier.lastSent_markSent] at hmark ⊢
    by_cases hsub : sub = current
    · subst hsub
      by_cases hnewer : lastSent.position < e.seq.position
      · simp_all
      · simp_all
    · simp_all
  | read current e entries subs =>
    simp only [Notifier.marks, TickPc.marks] at hmark ⊢
    by_cases hsub : current = sub
    · simp_all
    · simp_all
  | send current e entries subs lastSent resumeIdx houtcome =>
    simp only [Notifier.marks, TickPc.marks] at hmark ⊢
    by_cases hsub : current = sub
    · subst hsub
      simp only [if_true, List.mem_cons, List.not_mem_nil, or_false] at hmark ⊢
      rcases hmark with hlast | hsent
      · exact Or.inl (Or.inl hlast)
      · exact Or.inr ⟨e, entries, by simp [TickPc.todo], rfl, hsent⟩
    · simp_all
  | _ =>
    simp_all [Notifier.marks, TickPc.marks]

theorem TickMove.ackCh_eq : effect.notifier.ackCh = n.ackCh := by
  cases hmove with
  | mark current e entries subs lastSent resumeIdx => exact n.ackCh_markSent current e lastSent
  | clear current e entries subs resumeIdx => exact n.ackCh_clearResume current e resumeIdx
  | _ => rfl

/-- A section keeps the resume index of a subscription, or deletes it after an entry was marked. -/
theorem TickMove.resumeIdx_cases :
    effect.notifier.resumeIdx sub = n.resumeIdx sub ∨
      effect.notifier.resumeIdx sub = 0 ∧
        ∃ e entries subs resumeIdx, pc = .marked sub e entries subs resumeIdx := by
  cases hmove with
  | mark current e entries subs lastSent resumeIdx =>
    exact Or.inl (n.resumeIdx_markSent current sub e lastSent)
  | clear current e entries subs resumeIdx =>
    rw [n.resumeIdx_clearResume]
    split
    · next hpast =>
      obtain ⟨rfl, _⟩ := hpast
      exact Or.inr ⟨rfl, e, entries, subs, resumeIdx, rfl⟩
    · exact Or.inl rfl
  | _ => exact Or.inl rfl

theorem TickMove.sent_reached {event : DataEvent} (hevent : event ∈ effect.sent) :
    event ∈ effect.reached := by
  cases hmove with
  | send => exact hevent
  | _ => cases hevent

theorem TickMove.reached_sending {event : DataEvent} (hevent : event ∈ effect.reached) :
    effect.reached = [event] ∧ ∃ e entries subs lastSent resumeIdx,
      pc = .sending event.subID e entries subs lastSent resumeIdx ∧ event = e.toEvent event.subID := by
  cases hmove with
  | send current e entries subs lastSent resumeIdx houtcome =>
    rw [List.mem_singleton] at hevent
    subst hevent
    exact ⟨rfl, e, entries, subs, lastSent, resumeIdx, rfl, rfl⟩
  | fail current e entries subs lastSent resumeIdx houtcome reached hreached =>
    rcases hreached with rfl | rfl
    · cases hevent
    · rw [List.mem_singleton] at hevent
      subst hevent
      exact ⟨rfl, e, entries, subs, lastSent, resumeIdx, rfl, rfl⟩
  | _ => cases hevent

/-- A section keeps the list of entries to come to, gives it up after a failed send, takes the
pending entries afresh, or drops the first entry because it was sent or must be skipped. -/
theorem TickMove.todo_cases :
    effect.pc.todo sub = pc.todo sub ∨ (effect.pc.todo sub = [] ∧ pc.sendingTo = some sub ∧ outcome ≠ .delivered) ∨
      effect.pc.todo sub = mgr.pending sub ∨
      ∃ e, pc.todo sub = e :: effect.pc.todo sub ∧
        (e.toEvent sub ∈ effect.sent ∨ n.Skips pc sub e) := by
  cases hmove with
  | enter current subs =>
    by_cases hsub : current = sub
    · exact Or.inr (Or.inr (Or.inl (by simp [TickPc.todo, hsub])))
    · exact Or.inl (by simp [TickPc.todo, hsub])
  | skip current e entries subs lastSent hskip =>
    by_cases hsub : current = sub
    · subst hsub
      refine Or.inr (Or.inr (Or.inr ⟨e, by simp [TickPc.todo], Or.inr ?_⟩))
      rcases hskip with hold | hbelow
      · exact Or.inl ⟨lastSent, by simp [Notifier.marks, TickPc.marks], hold⟩
      · exact Or.inr hbelow
    · exact Or.inl (by simp [TickPc.todo, hsub])
  | send current e entries subs lastSent resumeIdx houtcome =>
    by_cases hsub : current = sub
    · subst hsub
      exact Or.inr (Or.inr (Or.inr ⟨e, by simp [TickPc.todo], Or.inl (by simp)⟩))
    · exact Or.inl (by simp [TickPc.todo, hsub])
  | fail current e entries subs lastSent resumeIdx houtcome =>
    by_cases hsub : current = sub
    · subst hsub
      exact Or.inr (Or.inl ⟨rfl, rfl, houtcome⟩)
    · exact Or.inl (by simp [TickPc.todo, hsub])
  | _ => exact Or.inl (by simp [TickPc.todo])

/-- A subscription the tick has to come to is still ahead or is entered. -/
theorem TickMove.subsLeft_cases (hleft : sub ∈ pc.subsLeft) :
    sub ∈ effect.pc.subsLeft ∨ effect.pc.todo sub = mgr.pending sub := by
  cases hmove with
  | enter current subs =>
    rcases List.mem_cons.mp hleft with rfl | hrest
    · exact Or.inr (by simp [TickPc.todo])
    · exact Or.inl hrest
  | finish => cases hleft
  | _ => exact Or.inl hleft

/-- While sends to the subscription succeed, a pending entry stays ahead of the tick until it
is sent or must be skipped. -/
theorem TickMove.ahead_cases {sub : String} {e : OutboxEntry} (hpending : e ∈ mgr.pending sub)
    (houtcome : pc.sendingTo = some sub → outcome = .delivered) (hahead : pc.Ahead sub e) :
    effect.pc.Ahead sub e ∨ e.toEvent sub ∈ effect.sent ∨ n.Skips pc sub e := by
  rcases hahead with hleft | htodo
  · rcases hmove.subsLeft_cases sub hleft with hstill | hentered
    · exact Or.inl (Or.inl hstill)
    · exact Or.inl (Or.inr (hentered ▸ hpending))
  · rcases hmove.todo_cases sub with hsame | ⟨_, hsending, hfailed⟩ | hentered | ⟨head, hhead, hwhy⟩
    · exact Or.inl (Or.inr (hsame ▸ htodo))
    · exact absurd (houtcome hsending) hfailed
    · exact Or.inl (Or.inr (hentered ▸ hpending))
    · rw [hhead] at htodo
      rcases List.mem_cons.mp htodo with rfl | hrest
      · exact Or.inr hwhy
      · exact Or.inl (Or.inr hrest)

end OneSubscription

end SevenDB.Emission
