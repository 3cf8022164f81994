import Mathlib.Data.List.Basic

/-!
# Actions that are logged later

Actions are applied to a state one after the other, and each may fail. They are logged in another order than
they were applied in. When an action commutes with all actions that were applied before it and are logged
after it, applying the log gives the same state.
-/

namespace SevenDB.Common

variable {S A : Type*} (apply : A → S → Option S)

/-- Apply actions one after the other. -/
def applyAll : List A → S → Option S
  | [], s => some s
  | action :: rest, s => (apply action s).bind (applyAll rest)

/-- Two actions can be applied in either order. -/
def Commutes (a b : A) : Prop := ∀ s, (apply a s).bind (apply b) = (apply b s).bind (apply a)

variable {apply}

theorem applyAll_append (first second : List A) (s : S) :
    applyAll apply (first ++ second) s = (applyAll apply first s).bind (applyAll apply second) := by
  induction first generalizing s with
  | nil => rfl
  | cons action rest ih =>
    rw [List.cons_append, applyAll, applyAll, Option.bind_assoc]
    congr 1
    funext next
    exact ih next

theorem applyAll_concat (actions : List A) (action : A) (s : S) :
    applyAll apply (actions ++ [action]) s = (applyAll apply actions s).bind (apply action) := by
  rw [applyAll_append]
  congr 1
  funext next
  change (apply action next).bind some = apply action next
  simp

theorem applyAll_map {B : Type*} (f : B → A) (actions : List B) (s : S) :
    applyAll apply (actions.map f) s = applyAll (fun b => apply (f b)) actions s := by
  induction actions generalizing s with
  | nil => rfl
  | cons b rest ih =>
    rw [List.map_cons, applyAll, applyAll]
    congr 1
    funext next
    exact ih next

theorem applyAll_cons_of_commutes {action : A} {first : List A} (h : ∀ other ∈ first, Commutes apply other action)
    (rest : List A) (s : S) : applyAll apply (first ++ action :: rest) s = applyAll apply (action :: (first ++ rest)) s := by
  induction first generalizing s with
  | nil => rfl
  | cons other first ih =>
    have hih (next : S) := ih (fun b hb => h b (List.mem_cons_of_mem other hb)) next
    calc applyAll apply (other :: (first ++ action :: rest)) s
        = (apply other s).bind fun next => (apply action next).bind (applyAll apply (first ++ rest)) := by
          rw [applyAll]
          congr 1
          funext next
          exact hih next
      _ = ((apply action s).bind (apply other)).bind (applyAll apply (first ++ rest)) := by
          rw [← Option.bind_assoc, h other List.mem_cons_self]
      _ = applyAll apply (action :: (other :: first ++ rest)) s := by
          rw [Option.bind_assoc]
          rfl

end SevenDB.Common
