import SevenDB.Emission.Rebind

/-!
# The last acknowledgment and the history behind it

The manager keeps one position per subscription. It is the greatest one of the
acknowledgments the subscription has received, in the order of epoch counter and commit index,
whichever order they came in and however often they were repeated, and also when a rebind has
merged the histories of two subscriptions.
-/

namespace SevenDB.Emission

/-- The recorded position is the greatest of those received, and none when none was. -/
def Newest (received : List EmitSeq) : Option EmitSeq → Prop
  | none => received = []
  | some last => last ∈ received ∧ ∀ seq ∈ received, seq.position ≤ last.position

section Rules

variable {received : List EmitSeq} {last : Option EmitSeq} {seq : EmitSeq}

theorem Newest.advance (h : Newest received last)
    (hnewer : ∀ old, last = some old → old.position < seq.position) :
    Newest (received ++ [seq]) (some seq) := by
  refine ⟨List.mem_append_right _ (List.mem_singleton_self seq), fun other hother => ?_⟩
  rcases List.mem_append.mp hother with hold | hself
  · cases last with
    | none =>
      have hnone : received = [] := h
      rw [hnone] at hold
      cases hold
    | some old => exact (h.2 other hold).trans (hnewer old rfl).le
  · rw [List.mem_singleton.mp hself]

theorem Newest.ignore {old : EmitSeq} (h : Newest received (some old)) (hold : seq.position ≤ old.position) :
    Newest (received ++ [seq]) (some old) := by
  refine ⟨List.mem_append_left _ h.1, fun other hother => ?_⟩
  rcases List.mem_append.mp hother with hbefore | hself
  · exact h.2 other hbefore
  · rw [List.mem_singleton.mp hself]
    exact hold

/-- An acknowledgment that is received joins the history, whether it is accepted or not. -/
theorem Newest.validateAck {m : Manager} {sub : String} (h : Newest received (m.lastAck.lookup sub)) :
    Newest (received ++ [seq]) ((m.validateAck sub seq).2.lastAck.lookup sub) := by
  rw [Manager.lastAck_validateAck]
  by_cases haccepted : (m.validateAck sub seq).1 = true
  · rw [if_pos ⟨rfl, haccepted⟩]
    exact h.advance ((m.validateAck_accepted_iff sub seq).mp haccepted)
  · rw [if_neg fun hboth => haccepted hboth.2]
    rw [Manager.validateAck_accepted_iff] at haccepted
    push Not at haccepted
    obtain ⟨old, hold, hle⟩ := haccepted
    rw [hold] at h ⊢
    exact h.ignore hle

/-- When a subscription takes over another one, the later of the two recorded positions is the
newest of both histories. -/
theorem Newest.laterMark {moved : List EmitSeq} {v : Option EmitSeq} (h : Newest received last)
    (hmoved : Newest moved v) : Newest (received ++ moved) (laterMark v last) := by
  cases v with
  | none =>
    have hnone : moved = [] := hmoved
    rw [hnone, List.append_nil]
    exact h
  | some v =>
    rw [SevenDB.Emission.laterMark]
    split
    · next hnewer =>
      refine ⟨List.mem_append_right _ hmoved.1, fun seq hseq => ?_⟩
      rcases List.mem_append.mp hseq with hkept | htaken
      · cases last with
        | none =>
          have hnone : received = [] := h
          rw [hnone] at hkept
          cases hkept
        | some cur => exact (h.2 seq hkept).trans ((EmitSeq.newer_iff v cur).mp hnewer).le
      · exact hmoved.2 seq htaken
    · next hold =>
      cases last with
      | none => exact absurd rfl hold
      | some cur =>
        have hle : v.position ≤ cur.position := not_lt.mp fun h => hold ((EmitSeq.newer_iff v cur).mpr h)
        refine ⟨List.mem_append_left _ h.1, fun seq hseq => ?_⟩
        rcases List.mem_append.mp hseq with hkept | htaken
        · exact h.2 seq hkept
        · exact (hmoved.2 seq htaken).trans hle

end Rules

end SevenDB.Emission
