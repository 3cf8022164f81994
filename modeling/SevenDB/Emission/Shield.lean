import SevenDB.Emission.Account

/-!
# Entries within the limit are not sent again

The limit of a subscription is shielded when an entry at or below it would be skipped by the
running tick, because the sent watermark has reached it or the resume point is above it. Between
the send of an entry and its mark the shield rests on the program point: the tick records the
entry before it looks at the next one.
-/

namespace SevenDB.Emission

/-- The watermark or the resume point of the notifier holds back every entry within the limit. -/
def HoldsBack (log : List OutboxEntry) (limit : ℕ) (sub : String) (n : Notifier) : Prop :=
  ∀ x ∈ log, x.index ≤ limit →
    x.seq.position ≤ (n.lastSent sub).position ∨ x.index < (n.resumeIdx sub).toNat

/-- What protects the entries within the limit, depending on where the tick stands. -/
def Shield (log : List OutboxEntry) (limit : ℕ) (sub : String) (n : Notifier) : TickPc → Prop
  | .watermarkRead current _ _ _ lastSent =>
    HoldsBack log limit sub n ∧ (current = sub → lastSent = n.lastSent sub)
  | .sending current e _ _ lastSent _ =>
    HoldsBack log limit sub n ∧ (current = sub → limit < e.index ∧ lastSent.position < e.seq.position)
  | .sendReturned current e _ _ lastSent _ =>
    if current = sub then e ∈ log ∧ e.index = limit ∧ lastSent.position < e.seq.position
    else HoldsBack log limit sub n
  | .marked current e _ _ _ =>
    if current = sub then e ∈ log ∧ e.index = limit ∧
      ∀ x ∈ log, x.index ≤ limit → x.seq.position ≤ (n.lastSent sub).position
    else HoldsBack log limit sub n
  | _ => HoldsBack log limit sub n

section Rules

variable {log : List OutboxEntry} {limit : ℕ} {sub : String} {n : Notifier} {mgr : Manager}
  {outcome : SendOutcome} {pc : TickPc} {effect : TickEffect}

/-- A watermark that goes up and an unchanged resume point keep holding back. -/
theorem HoldsBack.mono {after : Notifier} (h : HoldsBack log limit sub n)
    (hlast : (n.lastSent sub).position ≤ (after.lastSent sub).position)
    (hresume : after.resumeIdx sub = n.resumeIdx sub) : HoldsBack log limit sub after := by
  intro x hx hle
  rcases h x hx hle with hmark | hbelow
  · exact Or.inl (hmark.trans hlast)
  · exact Or.inr (hresume ▸ hbelow)

/-- A section that sends nothing to the subscription keeps the shield. -/
theorem Shield.move {epoch : EpochID} (h : Shield log limit sub n pc)
    (hmove : TickMove n mgr outcome pc effect) (hepoch : ∀ x ∈ log, x.seq.epoch = epoch)
    (htodo : ∀ x ∈ pc.todo sub, x ∈ log) (hquiet : pc.sendingTo ≠ some sub) :
    Shield log limit sub effect.notifier effect.pc := by
  cases hmove with
  | read current e entries subs => exact ⟨h, fun hsub => by rw [hsub]⟩
  | choose current e entries subs lastSent hmark hresume =>
    refine ⟨h.1, fun hsub => ⟨?_, hmark⟩⟩
    subst hsub
    by_contra hle
    have he : e ∈ log := htodo e (by simp [TickPc.todo])
    rcases h.1 e he (not_lt.mp hle) with hskip | hbelow
    · rw [← h.2 rfl] at hskip
      exact absurd hmark (not_lt.mpr hskip)
    · omega
  | send current e entries subs lastSent resumeIdx houtcome =>
    have hother : current ≠ sub := fun heq => hquiet (congrArg some heq)
    simp only [Shield, if_neg hother]
    exact h.1
  | mark current e entries subs lastSent resumeIdx =>
    by_cases hsub : current = sub
    · subst hsub
      simp only [Shield, if_true] at h ⊢
      obtain ⟨he, hindex, hnewer⟩ := h
      refine ⟨he, hindex, fun x hx hle => ?_⟩
      rw [Notifier.lastSent_markSent, if_pos ⟨rfl, hnewer⟩,
        EmitSeq.position_le_iff_index (by rw [hepoch x hx, hepoch e he])]
      exact hle.trans hindex.ge
    · simp only [Shield, if_neg hsub] at h ⊢
      refine h.mono ?_ (Notifier.resumeIdx_markSent ..)
      rw [Notifier.lastSent_markSent, if_neg fun heq => hsub heq.1.symm]
  | clear current e entries subs resumeIdx =>
    by_cases hsub : current = sub
    · simp only [Shield, if_pos hsub] at h
      intro x hx hle
      rw [Notifier.lastSent_clearResume]
      exact Or.inl (h.2.2 x hx hle)
    · simp only [Shield, if_neg hsub] at h
      refine h.mono ?_ ?_
      · rw [Notifier.lastSent_clearResume]
      · rw [Notifier.resumeIdx_clearResume, if_neg fun heq => hsub heq.1.symm]
  | skip => exact h.1
  | fail => exact h.1
  | rest | finish | enter | leave => exact h

/-- Changing the notifier so that its watermark and resume point stay keeps the shield. -/
theorem Shield.congr {after : Notifier} (h : Shield log limit sub n pc)
    (hlast : after.lastSent sub = n.lastSent sub) (hresume : after.resumeIdx sub = n.resumeIdx sub) :
    Shield log limit sub after pc := by
  cases pc <;> simpa only [Shield, HoldsBack, hlast, hresume] using h

/-- A new entry above the limit, or held back by the resume point, keeps the shield. -/
theorem Shield.append {entry : OutboxEntry} (h : Shield log limit sub n pc)
    (hentry : entry.index ≤ limit → entry.index < (n.resumeIdx sub).toNat ∧
      (∀ e ∈ log, e.index ≠ limit)) : Shield (log ++ [entry]) limit sub n pc := by
  have hholds (hback : HoldsBack log limit sub n) : HoldsBack (log ++ [entry]) limit sub n := by
    intro x hx hle
    rcases List.mem_append.mp hx with hold | hnew
    · exact hback x hold hle
    · rw [List.mem_singleton.mp hnew] at hle ⊢
      exact Or.inr (hentry hle).1
  cases pc with
  | watermarkRead | sending => exact ⟨hholds h.1, h.2⟩
  | sendReturned current e entries subs lastSent resumeIdx =>
    by_cases hsub : current = sub
    · simp only [Shield, if_pos hsub] at h ⊢
      exact ⟨List.mem_append_left _ h.1, h.2⟩
    · simp only [Shield, if_neg hsub] at h ⊢
      exact hholds h
  | marked current e entries subs resumeIdx =>
    by_cases hsub : current = sub
    · simp only [Shield, if_pos hsub] at h ⊢
      refine ⟨List.mem_append_left _ h.1, h.2.1, fun x hx hle => ?_⟩
      rcases List.mem_append.mp hx with hold | hnew
      · exact h.2.2 x hold hle
      · rw [List.mem_singleton.mp hnew] at hle
        exact absurd h.2.1 ((hentry hle).2 e h.1)
    · simp only [Shield, if_neg hsub] at h ⊢
      exact hholds h
  | idle | scan | visit => exact hholds h

end Rules

end SevenDB.Emission
