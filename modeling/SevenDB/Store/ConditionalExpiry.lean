import SevenDB.Store.Store

/-!
# Conditional expiry

The options NX, XX, GT and LT put conditions on a new expiry time. The code raises one flag as soon as one
of the conditions holds, and with XX it also sets the time of an object that has none, without reporting it.
So the time is set exactly when all conditions hold as long as XX is not given or none of them fails.
-/

namespace SevenDB.Store

open SevenDB.Common SevenDB.Types

inductive ExpiryOption
  | nx
  | xx
  | gt
  | lt
  deriving DecidableEq, Repr

namespace ExpiryOption

/-- The option that a text names, in any case. -/
def ofText (text : GoString) : Option ExpiryOption :=
  if toUpper text = ascii "NX" then some nx
  else if toUpper text = ascii "XX" then some xx
  else if toUpper text = ascii "GT" then some gt
  else if toUpper text = ascii "LT" then some lt
  else none

/-- The condition of an option holds for the present and the new expiry time. -/
def holds (prev : Option Int64) (newExpiry : Int64) : ExpiryOption → Bool
  | nx => decide (prev = none)
  | xx => decide (prev ≠ none)
  | gt => prev.any fun old => decide (old < newExpiry)
  | lt => prev.any fun old => decide (newExpiry < old)

/-- Options that may be given together. -/
def compatible (given : List ExpiryOption) : Bool :=
  !(!decide (nx ∈ given) && decide (gt ∈ given) && decide (lt ∈ given)) &&
    !(decide (nx ∈ given) && (decide (xx ∈ given) || decide (gt ∈ given) || decide (lt ∈ given)))

theorem eq_of_compatible {given : List ExpiryOption} (h : compatible given = true) (hxx : xx ∉ given)
    {a b : ExpiryOption} (ha : a ∈ given) (hb : b ∈ given) : a = b := by
  simp only [compatible, Bool.and_eq_true, Bool.not_eq_true', Bool.and_eq_false_iff, Bool.or_eq_false_iff,
    decide_eq_false_iff_not, Bool.not_eq_false', decide_eq_true_eq] at h
  cases a <;> cases b <;> simp_all

end ExpiryOption

variable {subCommands : List GoString} {now : Int64} {slot : Slot}

/-- What has been read once all options are known: each flag says that the option is there, and the last one
that a condition holds. -/
def ExpiryOptions.with (opts : ExpiryOptions) (prev : Option Int64) (newExpiry : Int64)
    (given : List ExpiryOption) : ExpiryOptions where
  nx := opts.nx || decide (.nx ∈ given)
  xx := opts.xx || decide (.xx ∈ given)
  gt := opts.gt || decide (.gt ∈ given)
  lt := opts.lt || decide (.lt ∈ given)
  shouldSet := opts.shouldSet || given.any (ExpiryOption.holds prev newExpiry)

theorem readExpiryOptions_of_mapM {given : List ExpiryOption}
    (h : subCommands.mapM ExpiryOption.ofText = some given) (prev : Option Int64) (newExpiry : Int64)
    (opts : ExpiryOptions) :
    readExpiryOptions prev newExpiry opts subCommands = .ok (opts.with prev newExpiry given) := by
  induction subCommands generalizing opts given with
  | nil =>
    obtain rfl : given = [] := by simpa using h.symm
    simp [readExpiryOptions, ExpiryOptions.with]
  | cons sub rest ih =>
    obtain ⟨first, hfirst, others, hothers, rfl⟩ : ∃ first, ExpiryOption.ofText sub = some first ∧
        ∃ others, rest.mapM ExpiryOption.ofText = some others ∧ first :: others = given := by
      simpa [List.mapM_cons, Option.bind_eq_some_iff] using h
    unfold ExpiryOption.ofText at hfirst
    unfold readExpiryOptions
    split_ifs at hfirst ⊢ <;> cases hfirst <;>
      simp [ih hothers, ExpiryOptions.with, ExpiryOption.holds, Bool.or_assoc]

theorem readExpiryOptions_of_mapM_none (h : subCommands.mapM ExpiryOption.ofText = none)
    (prev : Option Int64) (newExpiry : Int64) (opts : ExpiryOptions) :
    ∃ e, readExpiryOptions prev newExpiry opts subCommands = .error e := by
  induction subCommands generalizing opts with
  | nil => simp at h
  | cons sub rest ih =>
    cases hrest : rest.mapM ExpiryOption.ofText with
    | none =>
      unfold readExpiryOptions
      split_ifs
      iterate 4 exact ih hrest _
      exact ⟨_, rfl⟩
    | some others =>
      have hsub : ExpiryOption.ofText sub = none := by
        rw [Option.eq_none_iff_forall_ne_some]
        simpa [List.mapM_cons, hrest, Option.bind_eq_none_iff] using h
      unfold ExpiryOption.ofText at hsub
      unfold readExpiryOptions
      split_ifs at hsub ⊢
      exact ⟨_, rfl⟩

/-- A key is found, and the options given for it are known and compatible. -/
structure Accepted (subCommands : List GoString) (now : Int64) (slot : Slot) (obj : Entry)
    (given : List ExpiryOption) : Prop where
  found : slot.get now = some obj
  known : subCommands.mapM ExpiryOption.ofText = some given
  compatible : ExpiryOption.compatible given = true

/-- The expiry time is set, and true returned, exactly when the options are accepted and the condition of each
of them holds; otherwise nothing changes. -/
def SetsConditionally (subCommands : List GoString) (newExpiry now : Int64) (slot : Slot) : Prop :=
  let result := evaluateAndSetExpiry subCommands newExpiry now slot
  (result.1 = .ok true ↔ ∃ obj given, Accepted subCommands now slot obj given ∧
      ∀ o ∈ given, o.holds obj.expiry newExpiry = true) ∧
    result.2 = if result.1 = .ok true then (slot.get now).map fun obj => { obj with expiry := some newExpiry }
      else slot.get now

namespace Accepted

variable {obj : Entry} {given : List ExpiryOption} (h : Accepted subCommands now slot obj given)
include h

theorem unique {other : Entry} {others : List ExpiryOption} (hother : Accepted subCommands now slot other others) :
    other = obj ∧ others = given :=
  ⟨Option.some.inj (hother.found.symm.trans h.found), Option.some.inj (hother.known.symm.trans h.known)⟩

theorem result (newExpiry : Int64) :
    evaluateAndSetExpiry subCommands newExpiry now slot =
      if given = [] ∨ given.any (ExpiryOption.holds obj.expiry newExpiry) = true then
        (.ok true, some { obj with expiry := some newExpiry })
      else if .xx ∈ given ∧ obj.expiry = none then (.ok false, some { obj with expiry := some newExpiry })
      else (.ok false, some obj) := by
  have hread := readExpiryOptions_of_mapM h.known obj.expiry newExpiry ⟨false, false, false, false, false⟩
  obtain ⟨hgtlt, hnx⟩ := Bool.and_eq_true_iff.mp h.compatible
  have hknown := h.known
  cases subCommands with
  | nil =>
    obtain rfl : given = [] := by simpa using hknown.symm
    simp [evaluateAndSetExpiry, h.found]
  | cons sub rest =>
    have hne : given ≠ [] := by
      rintro rfl
      simp [List.mapM_cons, Option.bind_eq_some_iff] at hknown
    rw [Bool.not_eq_true'] at hgtlt hnx
    simp [evaluateAndSetExpiry, h.found, hread, ExpiryOptions.with, hgtlt, hnx, hne]

end Accepted

theorem evaluateAndSetExpiry_refused (h : ∀ obj given, ¬Accepted subCommands now slot obj given)
    (newExpiry : Int64) :
    (evaluateAndSetExpiry subCommands newExpiry now slot).1 ≠ .ok true ∧
      (evaluateAndSetExpiry subCommands newExpiry now slot).2 = slot.get now := by
  cases hfound : slot.get now with
  | none => simp [evaluateAndSetExpiry, hfound]
  | some obj =>
    have hne : subCommands ≠ [] := by
      rintro rfl
      exact h obj [] ⟨hfound, by simp, by decide⟩
    cases hknown : subCommands.mapM ExpiryOption.ofText with
    | none =>
      obtain ⟨e, he⟩ := readExpiryOptions_of_mapM_none hknown obj.expiry newExpiry ⟨false, false, false, false, false⟩
      simp [evaluateAndSetExpiry, hfound, hne, he]
    | some given =>
      have hread := readExpiryOptions_of_mapM hknown obj.expiry newExpiry ⟨false, false, false, false, false⟩
      have hrefused : ExpiryOption.compatible given ≠ true := fun hcompatible => h obj given ⟨hfound, hknown, hcompatible⟩
      simp only [evaluateAndSetExpiry, hfound, hne, hread, ExpiryOptions.with, Bool.false_or, if_false]
      split_ifs <;> simp_all [ExpiryOption.compatible]

/-- The expiry time is set as the conditions ask for exactly when XX is not among the options that are accepted,
or no condition of them fails. -/
theorem conditional_expiry_iff (subCommands : List GoString) (newExpiry now : Int64) (slot : Slot) :
    SetsConditionally subCommands newExpiry now slot ↔
      ∀ obj given, Accepted subCommands now slot obj given → .xx ∈ given →
        ∀ o ∈ given, o.holds obj.expiry newExpiry = true := by
  by_cases haccepted : ∃ obj given, Accepted subCommands now slot obj given
  · obtain ⟨obj, given, h⟩ := haccepted
    have hall : (∀ obj given, Accepted subCommands now slot obj given → .xx ∈ given →
        ∀ o ∈ given, o.holds obj.expiry newExpiry = true) ↔
        (.xx ∈ given → ∀ o ∈ given, o.holds obj.expiry newExpiry = true) := by
      refine ⟨fun hevery => hevery obj given h, fun hevery other others hother => ?_⟩
      obtain ⟨rfl, rfl⟩ := h.unique hother
      exact hevery
    have hmet : (∃ obj given, Accepted subCommands now slot obj given ∧
        ∀ o ∈ given, o.holds obj.expiry newExpiry = true) ↔
        ∀ o ∈ given, o.holds obj.expiry newExpiry = true := by
      refine ⟨?_, fun hevery => ⟨obj, given, h, hevery⟩⟩
      rintro ⟨other, others, hother, hevery⟩
      obtain ⟨rfl, rfl⟩ := h.unique hother
      exact hevery
    have hresult := h.result newExpiry
    rw [hall, SetsConditionally, hmet, h.found]
    split_ifs at hresult with hset hxx
    · -- the flag is up, so what the other conditions say is not asked
      simp only [hresult, true_iff, if_true, Option.map_some, and_true]
      refine ⟨fun hevery _ => hevery, fun hevery o ho => ?_⟩
      by_cases hxx : .xx ∈ given
      · exact hevery hxx o ho
      · have hany : given.any (ExpiryOption.holds obj.expiry newExpiry) = true :=
          hset.resolve_left (List.ne_nil_of_mem ho)
        obtain ⟨first, hfirst, hholds⟩ := List.any_eq_true.mp hany
        rw [ExpiryOption.eq_of_compatible h.compatible hxx ho hfirst]
        exact hholds
    · -- an object without a time gets one, although the condition of XX fails
      have hentry : ({ obj with expiry := some newExpiry } : Entry) ≠ obj := fun heq => by
        simpa [hxx.2] using congrArg Entry.expiry heq
      simp only [hresult, hentry, Option.some.injEq, Except.ok.injEq, Bool.false_eq_true, if_false, and_false,
        false_iff]
      intro hevery
      simpa [ExpiryOption.holds, hxx.2] using hevery hxx.1 .xx hxx.1
    · -- no condition holds, so nothing is set
      obtain ⟨hne, hnone⟩ := not_or.mp hset
      obtain ⟨first, hfirst⟩ := List.exists_mem_of_ne_nil given hne
      have hfails : ∀ o ∈ given, o.holds obj.expiry newExpiry = false := by simpa using hnone
      have hunmet : ¬∀ o ∈ given, o.holds obj.expiry newExpiry = true := fun hevery =>
        Bool.false_ne_true ((hfails first hfirst).symm.trans (hevery first hfirst))
      simp only [hresult, hunmet, Except.ok.injEq, Bool.false_eq_true, if_false, and_true, true_iff]
      intro hgiven
      have hprev : obj.expiry ≠ none := fun hnone => hxx ⟨hgiven, hnone⟩
      simpa [ExpiryOption.holds, hprev] using hfails .xx hgiven
  · simp only [not_exists] at haccepted
    obtain ⟨hfalse, hsame⟩ := evaluateAndSetExpiry_refused haccepted newExpiry
    simp [SetsConditionally, hfalse, hsame, haccepted]

/-- XX sets the time of an object without one and reports nothing, and with GT it sets an earlier time. -/
theorem conditional_expiry_xx :
    evaluateAndSetExpiry [ascii "XX"] 7 0 (some ⟨.int 1, none⟩) = (.ok false, some ⟨.int 1, some 7⟩) ∧
      evaluateAndSetExpiry [ascii "xx", ascii "gt"] 7 0 (some ⟨.int 1, some 9⟩) =
        (.ok true, some ⟨.int 1, some 7⟩) ∧
      ¬SetsConditionally [ascii "XX"] 7 0 (some ⟨.int 1, none⟩) ∧
      ¬SetsConditionally [ascii "xx", ascii "gt"] 7 0 (some ⟨.int 1, some 9⟩) := by
  refine ⟨by decide, by decide, fun h => absurd h.2 (by decide), fun h => ?_⟩
  obtain ⟨obj, given, ⟨hfound, hgiven, _⟩, hall⟩ := h.1.mp (by decide)
  cases hfound
  cases hgiven
  exact absurd (hall .gt (by decide)) (by decide)

end SevenDB.Store
