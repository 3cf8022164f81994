import Mathlib.Data.List.TakeWhile
import SevenDB.Emission.RebindConserves

/-!
# Which subscription a rebind finds

The old name is that of the old client when the manager knows it. Otherwise it is a known name
that ends in the fingerprint, or one that begins with the old client when no fingerprint is
given, and the first of these in the order of the search is taken. Only this name and the new
one are touched, so the order matters exactly when several known names match.
-/

namespace SevenDB.Emission

open SevenDB.Common

theorem SearchOrder.find_cases (order : SearchOrder) (test : String → Bool) :
    order.find test = "" ∨ test (order.find test) = true := by
  unfold SearchOrder.find
  cases hfound : (order.bySub ++ order.lastAck ++ order.compactThrough).find? test with
  | none => exact Or.inl rfl
  | some sub => exact Or.inr (List.find?_some hfound)

variable {order : SearchOrder} {m : Manager}

/-- A search through the maps of a manager goes through the names that it knows. -/
theorem SearchOrder.Covers.mem_iff (hcovers : order.Covers m) (sub : String) :
    sub ∈ order.bySub ++ order.lastAck ++ order.compactThrough ↔ m.knows sub = true := by
  have hlists {V : Type} {names : List String} {table : Table String V} (h : Lists names table) :
      sub ∈ names ↔ sub ∈ table := by
    rw [← List.mem_toFinset, h.2, Finmap.mem_keys]
  rw [List.mem_append, List.mem_append, hlists hcovers.1, hlists hcovers.2.1, hlists hcovers.2.2,
    Manager.knows, Bool.or_eq_true, Bool.or_eq_true, decide_eq_true_iff, decide_eq_true_iff,
    decide_eq_true_iff]

/-- A search through the maps of a manager finds a known name whenever there is one. -/
theorem SearchOrder.Covers.find (hcovers : order.Covers m) (test : String → Bool) :
    (order.find test = "" ∧ ∀ sub, m.knows sub = true → test sub = false) ∨
      m.knows (order.find test) = true ∧ test (order.find test) = true := by
  unfold SearchOrder.find
  cases hfound : (order.bySub ++ order.lastAck ++ order.compactThrough).find? test with
  | none =>
    refine Or.inl ⟨rfl, fun sub hknown => ?_⟩
    have hmiss := List.find?_eq_none.mp hfound sub ((hcovers.mem_iff sub).mpr hknown)
    exact Bool.eq_false_iff.mpr hmiss
  | some sub =>
    exact Or.inr ⟨(hcovers.mem_iff sub).mp (List.mem_of_find?_eq_some hfound), List.find?_some hfound⟩

/-- The old name that a rebind finds, empty when it finds none. -/
def Manager.located (m : Manager) (order : SearchOrder) (fp : UInt64) (oldClientID : String) : String :=
  if fp ≠ 0 then
    if oldClientID ≠ "" ∧ m.knows (subIDOf oldClientID fp) = true then subIDOf oldClientID fp
    else order.find fun sub => hasSuffix sub (":" ++ formatUint fp)
  else if oldClientID ≠ "" then order.find fun sub => hasPrefix sub (oldClientID ++ ":") else ""

theorem Manager.locate_planRebind (m : Manager) (order : SearchOrder) (fp : UInt64)
    (oldClientID newClientID : String) :
    (m.planRebind order fp oldClientID newClientID).locate order = m.located order fp oldClientID := by
  unfold Manager.planRebind Manager.located
  by_cases hfp : fp ≠ 0
  · rw [if_pos hfp, if_pos hfp]
    dsimp only
    by_cases hknown : oldClientID ≠ "" ∧ m.knows (subIDOf oldClientID fp) = true
    · rw [if_pos hknown, if_pos hknown]
      exact if_neg fun h => subIDOf_ne_empty _ _ h.1
    · rw [if_neg hknown, if_neg hknown]
      exact if_pos ⟨rfl, hfp⟩
  · rw [if_neg hfp, if_neg hfp]
    by_cases hold : oldClientID ≠ ""
    · rw [if_pos hold, if_pos hold]
      dsimp only
      generalize order.find (fun sub => hasPrefix sub (oldClientID ++ ":")) = found
      split
      · next front tail hsplit =>
        have hfound : found ≠ "" := by
          rintro rfl
          cases hsplit
        split
        · exact if_neg fun h => hfound h.1
        · exact if_neg fun h => h.2 rfl
      · exact if_neg fun h => h.2 rfl
    · rw [if_neg hold, if_neg hold]
      exact if_neg fun h => h.2 rfl

/-- What follows the first colon of a name. -/
def subTail (sub : String) : String := ((splitColon sub).map Prod.snd).getD ""

/-- The new name for an old one: it has the fingerprint given, or the end of the old name. -/
def renamedSub (fp : UInt64) (newClientID oldSub : String) : String :=
  if fp ≠ 0 then subIDOf newClientID fp else newClientID ++ ":" ++ subTail oldSub

/-- A rebind from the old name that was found. -/
def Manager.rebindFrom (m : Manager) (fp : UInt64) (newClientID oldSub : String) : RebindResult :=
  if oldSub = "" then ⟨m, "", if fp ≠ 0 then subIDOf newClientID fp else "", 0⟩
  else if oldSub = renamedSub fp newClientID oldSub then ⟨m, oldSub, renamedSub fp newClientID oldSub, 0⟩
  else ⟨m.moveSub oldSub (renamedSub fp newClientID oldSub), oldSub, renamedSub fp newClientID oldSub,
    (m.ob.entries oldSub).keys.card⟩

theorem splitColon_of_hasPrefix {sub clientID : String} (h : hasPrefix sub (clientID ++ ":") = true) :
    ∃ parts, splitColon sub = some parts := by
  have hstart := List.isPrefixOf_iff_prefix.mp h
  have hcolon : ':' ∈ sub.toList := by
    apply hstart.subset
    simp
  unfold splitColon
  split
  · next hnone =>
    have hall := List.dropWhile_eq_nil_iff.mp hnone ':' hcolon
    simp at hall
  · exact ⟨_, rfl⟩

/-- Without a fingerprint the plan has no new name, or that of the old name found. -/
theorem Manager.newSub_planRebind_zero (m : Manager) (order : SearchOrder) (oldClientID newClientID : String) :
    (m.located order 0 oldClientID = "" ∧ m.planRebind order 0 oldClientID newClientID = ⟨0, "", ""⟩) ∨
      ∃ front, splitColon (m.located order 0 oldClientID) =
          some (front, subTail (m.located order 0 oldClientID)) ∧
        ((m.planRebind order 0 oldClientID newClientID).newSub = "" ∨
          (m.planRebind order 0 oldClientID newClientID).newSub =
            newClientID ++ ":" ++ subTail (m.located order 0 oldClientID)) := by
  unfold Manager.planRebind Manager.located
  rw [if_neg (not_not.mpr rfl), if_neg (not_not.mpr rfl)]
  by_cases hold : oldClientID ≠ ""
  · rw [if_pos hold, if_pos hold]
    dsimp only
    have hfound := order.find_cases fun sub => hasPrefix sub (oldClientID ++ ":")
    generalize order.find (fun sub => hasPrefix sub (oldClientID ++ ":")) = found at hfound ⊢
    rcases hfound with rfl | hstart
    · exact Or.inl ⟨rfl, rfl⟩
    · obtain ⟨⟨front, tail⟩, hsplit⟩ := splitColon_of_hasPrefix hstart
      have htail : subTail found = tail := by
        rw [subTail, hsplit]
        rfl
      rw [htail, hsplit]
      refine Or.inr ⟨front, rfl, ?_⟩
      dsimp only
      split
      · exact Or.inr rfl
      · exact Or.inl rfl
  · rw [if_neg hold, if_neg hold]
    exact Or.inl ⟨rfl, rfl⟩

/-- Beside the manager, the outcome of a rebind depends on the old name that it finds only. -/
theorem Manager.rebindByFingerprint_eq (m : Manager) (order : SearchOrder) (fp : UInt64)
    (oldClientID newClientID : String) :
    m.rebindByFingerprint order fp oldClientID newClientID =
      m.rebindFrom fp newClientID (m.located order fp oldClientID) := by
  have hlocate := m.locate_planRebind order fp oldClientID newClientID
  unfold Manager.rebindByFingerprint Manager.rebindFrom renamedSub
  dsimp only
  rw [hlocate]
  by_cases hfp : fp ≠ 0
  · have hplan : (m.planRebind order fp oldClientID newClientID).newSub = subIDOf newClientID fp := by
      rw [Manager.planRebind, if_pos hfp]
    simp only [hplan, if_pos hfp, subIDOf_ne_empty, false_and, if_false]
  · rw [not_not] at hfp
    subst hfp
    simp only [ne_eq, not_true_eq_false, if_false]
    rcases m.newSub_planRebind_zero order oldClientID newClientID with ⟨hnone, hplan⟩ | ⟨front, hsplit, hplan⟩
    · rw [hnone, hplan]
      rfl
    · have hfound : m.located order 0 oldClientID ≠ "" := by
        intro hempty
        rw [hempty] at hsplit
        cases hsplit
      rw [if_neg hfound, if_neg hfound]
      rcases hplan with hplan | hplan
      · rw [hplan, if_pos rfl, hsplit]
        rfl
      · have hname : newClientID ++ ":" ++ subTail (m.located order 0 oldClientID) ≠ "" := by
          intro hempty
          have hchars := congrArg String.toList hempty
          simp at hchars
        rw [hplan, if_neg hname]

/-- A rebind without an old name changes nothing, and otherwise it touches the two names that it
reports and no other. -/
theorem Manager.rebindFrom_frame (m : Manager) (fp : UInt64) (newClientID oldSub : String) :
    (m.rebindFrom fp newClientID oldSub).oldSub = oldSub ∧
      (fp ≠ 0 → (m.rebindFrom fp newClientID oldSub).newSub = subIDOf newClientID fp) ∧
      (oldSub = "" → (m.rebindFrom fp newClientID oldSub).mgr = m) ∧
      ∀ sub, sub ≠ oldSub → sub ≠ (m.rebindFrom fp newClientID oldSub).newSub →
        m.Agrees (m.rebindFrom fp newClientID oldSub).mgr sub := by
  have hname : fp ≠ 0 → renamedSub fp newClientID oldSub = subIDOf newClientID fp := fun hfp => if_pos hfp
  unfold Manager.rebindFrom
  by_cases hempty : oldSub = ""
  · rw [if_pos hempty]
    exact ⟨hempty.symm, fun hfp => if_pos hfp, fun _ => rfl, fun sub _ _ => .refl m sub⟩
  · rw [if_neg hempty]
    by_cases hsame : oldSub = renamedSub fp newClientID oldSub
    · rw [if_pos hsame]
      exact ⟨rfl, hname, fun _ => rfl, fun sub _ _ => .refl m sub⟩
    · rw [if_neg hsame]
      exact ⟨rfl, hname, fun h => absurd h hempty, fun sub hold hnew => m.agrees_moveSub hsame hold hnew⟩

/-- The known names among which a rebind finds the old one: the one that belongs to the old
client, or else all that end in the fingerprint, or all of the old client without a fingerprint. -/
def Manager.Candidate (m : Manager) (fp : UInt64) (oldClientID sub : String) : Prop :=
  m.knows sub = true ∧
    if fp ≠ 0 then
      if oldClientID ≠ "" ∧ m.knows (subIDOf oldClientID fp) = true then sub = subIDOf oldClientID fp
      else hasSuffix sub (":" ++ formatUint fp) = true
    else oldClientID ≠ "" ∧ hasPrefix sub (oldClientID ++ ":") = true

/-- The old name found is a candidate, and it is empty only when there is none. -/
theorem SearchOrder.Covers.located (hcovers : order.Covers m) (fp : UInt64) (oldClientID : String) :
    (m.located order fp oldClientID = "" ∧ ∀ sub, ¬ m.Candidate fp oldClientID sub) ∨
      m.Candidate fp oldClientID (m.located order fp oldClientID) := by
  unfold Manager.located Manager.Candidate
  by_cases hfp : fp ≠ 0
  · simp only [if_pos hfp]
    by_cases hknown : oldClientID ≠ "" ∧ m.knows (subIDOf oldClientID fp) = true
    · simp only [if_pos hknown]
      exact Or.inr ⟨hknown.2, trivial⟩
    · simp only [if_neg hknown]
      rcases hcovers.find fun sub => hasSuffix sub (":" ++ formatUint fp) with ⟨hnone, hmiss⟩ | hfound
      · refine Or.inl ⟨hnone, fun sub hsub => ?_⟩
        exact Bool.eq_false_iff.mp (hmiss sub hsub.1) hsub.2
      · exact Or.inr hfound
  · simp only [if_neg hfp]
    by_cases hold : oldClientID ≠ ""
    · simp only [if_pos hold]
      rcases hcovers.find fun sub => hasPrefix sub (oldClientID ++ ":") with ⟨hnone, hmiss⟩ | hfound
      · refine Or.inl ⟨hnone, fun sub hsub => ?_⟩
        exact Bool.eq_false_iff.mp (hmiss sub hsub.1) hsub.2.2
      · exact Or.inr ⟨hfound.1, hold, hfound.2⟩
    · simp only [if_neg hold]
      exact Or.inl ⟨trivial, fun sub hsub => hold hsub.2.1⟩

/-- Two searches find the same old name when there is at most one candidate. -/
theorem Manager.located_unique {fp : UInt64} {oldClientID : String}
    (hunique : ∀ first second, m.Candidate fp oldClientID first → m.Candidate fp oldClientID second → first = second)
    {other : SearchOrder} (hcovers : order.Covers m) (hother : other.Covers m) :
    m.located other fp oldClientID = m.located order fp oldClientID := by
  rcases hcovers.located fp oldClientID with ⟨hnone, hmiss⟩ | hfirst
  · rcases hother.located fp oldClientID with ⟨hnone', _⟩ | hsecond
    · rw [hnone, hnone']
    · exact absurd hsecond (hmiss _)
  · rcases hother.located fp oldClientID with ⟨_, hmiss⟩ | hsecond
    · exact absurd hfirst (hmiss _)
    · exact hunique _ _ hsecond hfirst

/-- A rebind touches the old name it finds and the new name only. It finds the name of the old
client when that is known, and its outcome depends on the search order only when several known
names match. -/
theorem Manager.rebind_touches_match (m : Manager) (order : SearchOrder) (hcovers : order.Covers m)
    (fp : UInt64) (oldClientID newClientID : String) :
    let result := m.rebindByFingerprint order fp oldClientID newClientID
    (∀ sub, sub ≠ result.oldSub → sub ≠ result.newSub → m.Agrees result.mgr sub) ∧
    ((result.oldSub = "" ∧ result.mgr = m ∧ ∀ sub, ¬ m.Candidate fp oldClientID sub) ∨
      m.Candidate fp oldClientID result.oldSub) ∧
    (fp ≠ 0 → result.newSub = subIDOf newClientID fp ∧
      (oldClientID ≠ "" → m.knows (subIDOf oldClientID fp) = true →
        ∀ clientID, clientID ≠ oldClientID → clientID ≠ newClientID →
          m.Agrees result.mgr (subIDOf clientID fp))) ∧
    ((∀ first second, m.Candidate fp oldClientID first → m.Candidate fp oldClientID second →
        first = second) →
      ∀ other : SearchOrder, other.Covers m →
        m.rebindByFingerprint other fp oldClientID newClientID = result) := by
  have hframe := m.rebindFrom_frame fp newClientID (m.located order fp oldClientID)
  obtain ⟨hold, hnew, hnothing, hframe⟩ := hframe
  rw [m.rebindByFingerprint_eq order]
  dsimp only
  rw [hold]
  refine ⟨hframe, ?_, fun hfp => ⟨hnew hfp, ?_⟩, ?_⟩
  · rcases hcovers.located fp oldClientID with ⟨hnone, hmiss⟩ | hfound
    · exact Or.inl ⟨hnone, hnothing hnone, hmiss⟩
    · exact Or.inr hfound
  · intro hclient hknown clientID hthird hthird'
    have hlocated : m.located order fp oldClientID = subIDOf oldClientID fp := by
      rw [Manager.located, if_pos hfp, if_pos ⟨hclient, hknown⟩]
    rw [hlocated] at hframe hnew ⊢
    apply hframe
    · exact fun h => hthird (subIDOf_left_injective h)
    · rw [hnew hfp]
      exact fun h => hthird' (subIDOf_left_injective h)
  · intro hunique other hother
    rw [m.rebindByFingerprint_eq other, m.located_unique hunique hcovers hother]

/-- Two clients have an entry under one fingerprint, and the old client is known. -/
theorem Manager.rebind_touches_match_known :
    let m := ((newManager "b").applyOutboxWrite "a:1" ⟨⟨"b", 1⟩, 4⟩ []).applyOutboxWrite "c:1" ⟨⟨"b", 1⟩, 5⟩ []
    SearchOrder.Covers ⟨["c:1", "a:1"], [], []⟩ m ∧
      m.Agrees (m.rebindByFingerprint ⟨["c:1", "a:1"], [], []⟩ 1 "a" "n").mgr (subIDOf "c" 1) := by
  have hcovers : SearchOrder.Covers ⟨["c:1", "a:1"], [], []⟩ (((newManager "b").applyOutboxWrite "a:1"
    ⟨⟨"b", 1⟩, 4⟩ []).applyOutboxWrite "c:1" ⟨⟨"b", 1⟩, 5⟩ []) := by decide
  refine ⟨hcovers, ?_⟩
  exact ((Manager.rebind_touches_match _ _ hcovers 1 "a" "n").2.2.1 (by decide)).2 (by decide) (by decide)
    "c" (by decide) (by decide)

/-- With an empty old client the entries of a third one are moved, and which third one depends
on the search order. -/
theorem Manager.rebind_takes_third_party :
    let m := ((newManager "b").applyOutboxWrite "a:1" ⟨⟨"b", 1⟩, 4⟩ []).applyOutboxWrite "c:1" ⟨⟨"b", 1⟩, 5⟩ []
    ∃ first second : SearchOrder, first.Covers m ∧ second.Covers m ∧
      ¬ m.Agrees (m.rebindByFingerprint first 1 "" "n").mgr (subIDOf "a" 1) ∧
      ¬ m.Agrees (m.rebindByFingerprint second 1 "" "n").mgr (subIDOf "c" 1) ∧
      (m.rebindByFingerprint first 1 "" "n").oldSub ≠ (m.rebindByFingerprint second 1 "" "n").oldSub := by
  refine ⟨⟨["a:1", "c:1"], [], []⟩, ⟨["c:1", "a:1"], [], []⟩, by decide, by decide, ?_, ?_, by decide⟩
  · intro hagrees
    exact absurd hagrees.pending (by decide)
  · intro hagrees
    exact absurd hagrees.pending (by decide)

end SevenDB.Emission
