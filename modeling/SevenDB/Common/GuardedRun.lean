import Mathlib.Logic.Basic
import Mathlib.Data.Option.Basic

/-!
# Runs of a partial step function under a guard

A machine is a partial function from a state and an action to the next state. The guard
says which actions the environment may choose in a state; it may depend on the history
kept in the state. A run fixes the whole sequence of actions, so a statement about every
run is a statement about every interleaving the guard admits.
-/

namespace SevenDB.Common

variable {S A : Type*}

/-- The actions lead from the first state to the last, each of them admitted by the guard. -/
inductive Run (step : S → A → Option S) (allowed : S → A → Prop) : S → List A → S → Prop
  | nil (start : S) : Run step allowed start [] start
  | cons {start next finish : S} {action : A} {rest : List A} (hallowed : allowed start action)
      (hstep : step start action = some next) (hrest : Run step allowed next rest finish) :
      Run step allowed start (action :: rest) finish

section Rules

variable {step : S → A → Option S} {allowed : S → A → Prop} {start middle finish : S}

theorem Run.single {action : A} (hallowed : allowed start action)
    (hstep : step start action = some finish) : Run step allowed start [action] finish :=
  .cons hallowed hstep (.nil finish)

theorem Run.append {first second : List A} (hfirst : Run step allowed start first middle)
    (hsecond : Run step allowed middle second finish) :
    Run step allowed start (first ++ second) finish := by
  induction hfirst with
  | nil => exact hsecond
  | cons hallowed hstep _ ih => exact .cons hallowed hstep (ih hsecond)

variable {actions : List A}

/-- A guard that admits more actions admits every run of the stricter one. -/
theorem Run.mono {wider : S → A → Prop} (hrun : Run step allowed start actions finish)
    (hwider : ∀ state action, allowed state action → wider state action) :
    Run step wider start actions finish := by
  induction hrun with
  | nil state => exact .nil state
  | cons hallowed hstep _ ih => exact .cons (hwider _ _ hallowed) hstep ih

/-- A run is one under another guard that all its actions pass in every state. -/
theorem Run.strengthen {stricter : S → A → Prop} (hrun : Run step allowed start actions finish)
    (hstricter : ∀ state, ∀ action ∈ actions, stricter state action) :
    Run step stricter start actions finish := by
  induction hrun with
  | nil state => exact .nil state
  | cons _ hstep _ ih =>
    exact .cons (hstricter _ _ List.mem_cons_self) hstep
      (ih fun state action hmem => hstricter state action (List.mem_cons_of_mem _ hmem))

section

variable (hrun : Run step allowed start actions finish)
include hrun

/-- The invariant rule: what every admitted step preserves holds after every run. -/
theorem Run.invariant (Inv : S → Prop)
    (hpreserved : ∀ state action next, Inv state → allowed state action → step state action = some next → Inv next)
    (hstart : Inv start) : Inv finish := by
  induction hrun with
  | nil => exact hstart
  | cons hallowed hstep _ ih => exact ih (hpreserved _ _ _ hstart hallowed hstep)

theorem Run.forall_mem {P : A → Prop}
    (h : ∀ state action, allowed state action → P action) : ∀ action ∈ actions, P action := by
  induction hrun with
  | nil => exact fun action hmem => absurd hmem List.not_mem_nil
  | cons hallowed _ _ ih =>
    intro action hmem
    rcases List.mem_cons.mp hmem with rfl | hrest
    · exact h _ _ hallowed
    · exact ih action hrest

/-- What actions turn on and off holds after a run exactly when it held before and was never turned
off, or when some action has turned it on and none since then has turned it off. -/
theorem Run.holds_iff {P : S → Prop} {on off : S → A → Prop}
    (heffect : ∀ state action next, allowed state action → step state action = some next → (P next ↔ on state action ∨ P state ∧ ¬ off state action)) :
    P finish ↔ P start ∧ Run step (fun state action => ¬ off state action) start actions finish ∨
      ∃ before action after middle next, actions = before ++ action :: after ∧
        Run step allowed start before middle ∧ step middle action = some next ∧ on middle action ∧
        Run step (fun state action => ¬ off state action) next after finish := by
  induction hrun with
  | nil state =>
    constructor
    · exact fun hP => Or.inl ⟨hP, .nil state⟩
    · rintro (⟨hP, _⟩ | ⟨before, action, after, _, _, heq, _⟩)
      · exact hP
      · cases before <;> cases heq
  | cons hallowed hstep hrest ih =>
    rw [ih, heffect _ _ _ hallowed hstep]
    constructor
    · rintro (⟨hon | ⟨hP, hoff⟩, hkept⟩ | ⟨before, action, after, middle, next, rfl, hbefore, hlater⟩)
      · exact Or.inr ⟨[], _, _, _, _, rfl, .nil _, hstep, hon, hkept⟩
      · exact Or.inl ⟨hP, .cons hoff hstep hkept⟩
      · exact Or.inr ⟨_ :: before, action, after, middle, next, rfl, .cons hallowed hstep hbefore, hlater⟩
    · rintro (⟨hP, hkept⟩ | ⟨before, action, after, middle, next, heq, hbefore, hlater⟩)
      · cases hkept with
        | cons hoff hstep' hkept =>
          rw [hstep] at hstep'
          cases hstep'
          exact Or.inl ⟨Or.inr ⟨hP, hoff⟩, hkept⟩
      · cases hbefore with
        | nil =>
          cases heq
          obtain ⟨hstep', hon, hkept⟩ := hlater
          rw [hstep] at hstep'
          cases hstep'
          exact Or.inl ⟨Or.inl hon, hkept⟩
        | cons _ hstep' hbefore =>
          cases heq
          rw [hstep] at hstep'
          cases hstep'
          exact Or.inr ⟨_, action, after, middle, next, rfl, hbefore, hlater⟩

end

/-- A run over two lists of actions passes through a state between them. -/
theorem Run.exists_middle {first second : List A} (hrun : Run step allowed start (first ++ second) finish) :
    ∃ middle, Run step allowed start first middle ∧ Run step allowed middle second finish := by
  induction first generalizing start with
  | nil => exact ⟨start, .nil start, hrun⟩
  | cons action rest ih =>
    cases hrun with
    | cons hallowed hstep hrest =>
      obtain ⟨middle, hfirst, hsecond⟩ := ih hrest
      exact ⟨middle, .cons hallowed hstep hfirst, hsecond⟩

/-- The actions fix the state that a run ends in, whatever the guards. -/
theorem Run.unique {wider : S → A → Prop} {other : S} (hrun : Run step allowed start actions finish)
    (hother : Run step wider start actions other) : finish = other := by
  induction hrun with
  | nil =>
    cases hother
    rfl
  | cons _ hstep _ ih =>
    cases hother with
    | cons _ hstep' hrest =>
      rw [hstep] at hstep'
      cases hstep'
      exact ih hrest

variable (step) in
/-- Each state that the actions pass through is related to each later one. -/
def HoldsBetween (rel : S → S → Prop) (start : S) (actions : List A) : Prop :=
  ∀ before during after earlier later, actions = before ++ during ++ after →
    Run step (fun _ _ => True) start before earlier → Run step (fun _ _ => True) earlier during later →
      rel earlier later

/-- What holds between the ends of each step that is not bad, and of no bad one, holds between any two
states of a run exactly when no step of it is bad. -/
theorem Run.holdsBetween_iff {rel : S → S → Prop} {bad : S → A → Prop}
    (hrun : Run step (fun _ _ => True) start actions finish) (hrefl : ∀ state, rel state state)
    (htrans : ∀ first second third, rel first second → rel second third → rel first third)
    (hstep : ∀ state action next, step state action = some next → (rel state next ↔ ¬ bad state action)) :
    HoldsBetween step rel start actions ↔
      Run step (fun state action => ¬ bad state action) start actions finish := by
  constructor
  · intro hbetween
    induction hrun with
    | nil state => exact .nil state
    | cons hallowed hnext _ ih =>
      refine .cons ((hstep _ _ _ hnext).mp ?_) hnext (ih fun before during after earlier later hsplit hto hfrom => ?_)
      · exact hbetween [] [_] _ _ _ rfl (.nil _) (.single trivial hnext)
      · exact hbetween (_ :: before) during after earlier later (congrArg _ hsplit) (.cons hallowed hnext hto) hfrom
  · rintro hgood before during after earlier later rfl hto hfrom
    obtain ⟨middle, hgood, _⟩ := hgood.exists_middle
    obtain ⟨first, hbefore, hduring⟩ := hgood.exists_middle
    rw [hbefore.unique hto] at hduring
    rw [← hduring.unique hfrom]
    refine hduring.invariant (rel earlier) (fun state action next hrel hgood hnext => ?_) (hrefl earlier)
    exact htrans _ _ _ hrel ((hstep _ _ _ hnext).mpr hgood)

end Rules

section Outputs

variable {E : Type*} (step : S → A → Option S) (out : S → A → List E)

/-- What the steps of an action list put out, one after the other. -/
def outputs : S → List A → List E
  | _, [] => []
  | state, action :: rest =>
    out state action ++
      match step state action with
      | some next => outputs next rest
      | none => []

variable {step} {allowed : S → A → Prop} {start middle finish : S}

theorem outputs_cons {next : S} {action : A} (rest : List A) (hstep : step start action = some next) :
    outputs step out start (action :: rest) = out start action ++ outputs step out next rest := by
  rw [outputs, hstep]

/-- What an action that is allowed puts out is of some kind, and so is what a run puts out. -/
theorem Run.forall_mem_outputs {actions : List A} (hrun : Run step allowed start actions finish) {P : E → Prop}
    (h : ∀ state action, allowed state action → ∀ x ∈ out state action, P x) :
    ∀ x ∈ outputs step out start actions, P x := by
  induction hrun with
  | nil => exact fun x hx => absurd hx List.not_mem_nil
  | cons hallowed hstep _ ih =>
    intro x hx
    rw [outputs_cons _ _ hstep] at hx
    rcases List.mem_append.mp hx with hfirst | hrest
    · exact h _ _ hallowed x hfirst
    · exact ih x hrest

/-- What a run puts out has the same image as what it puts out in another way, when each action has. -/
theorem map_outputs {F X : Type*} {other : S → A → List F} {f : E → X} {g : F → X}
    (h : ∀ state action, (out state action).map f = (other state action).map g) (start : S) (actions : List A) :
    (outputs step out start actions).map f = (outputs step other start actions).map g := by
  induction actions generalizing start with
  | nil => rfl
  | cons action rest ih =>
    rw [outputs, outputs, List.map_append, List.map_append, h]
    cases step start action with
    | none => rfl
    | some next => rw [ih next]

theorem Run.outputs_append {first : List A} (hrun : Run step allowed start first middle)
    (second : List A) :
    outputs step out start (first ++ second) =
      outputs step out start first ++ outputs step out middle second := by
  induction hrun with
  | nil => rfl
  | cons _ hstep _ ih =>
    rw [List.cons_append, outputs_cons out _ hstep, outputs_cons out _ hstep, ih, List.append_assoc]

/-- The rule for properties that hold until something is put out. -/
theorem Run.invariant_or_output {actions : List A} (hrun : Run step allowed start actions finish)
    (Inv : S → Prop) (x : E)
    (hpreserved : ∀ state action next, Inv state → allowed state action →
      step state action = some next → Inv next ∨ x ∈ out state action)
    (hstart : Inv start) : Inv finish ∨ x ∈ outputs step out start actions := by
  induction hrun with
  | nil => exact Or.inl hstart
  | cons hallowed hstep _ ih =>
    rw [outputs_cons out _ hstep]
    rcases hpreserved _ _ _ hstart hallowed hstep with hnext | hout
    · exact (ih hnext).imp_right (List.mem_append_right _)
    · exact Or.inr (List.mem_append_left _ hout)

end Outputs

/-- Execute a list of actions, failing where the guard or the machine refuses one. -/
def runChecked (step : S → A → Option S) (allowed : S → A → Prop)
    [∀ state action, Decidable (allowed state action)] : S → List A → Option S
  | state, [] => some state
  | state, action :: rest =>
    if allowed state action then (step state action).bind fun next => runChecked step allowed next rest
    else none

section

variable (step : S → A → Option S) (allowed : S → A → Prop) [∀ state action, Decidable (allowed state action)]

/-- Executing a list of actions finds exactly the runs over it. -/
theorem runChecked_eq_some_iff (start finish : S) (actions : List A) :
    runChecked step allowed start actions = some finish ↔ Run step allowed start actions finish := by
  induction actions generalizing start with
  | nil =>
    constructor
    · intro h
      simp only [runChecked, Option.some.injEq] at h
      subst h
      exact .nil start
    · rintro ⟨⟩
      rfl
  | cons action rest ih =>
    by_cases hallowed : allowed start action
    · rw [runChecked, if_pos hallowed, Option.bind_eq_some_iff]
      constructor
      · rintro ⟨next, hstep, hrest⟩
        exact .cons hallowed hstep ((ih next).mp hrest)
      · rintro (_ | ⟨_, hstep, hrest⟩)
        exact ⟨_, hstep, (ih _).mpr hrest⟩
    · rw [runChecked, if_neg hallowed]
      constructor
      · intro h
        cases h
      · rintro (_ | ⟨hadmitted, _, _⟩)
        exact absurd hadmitted hallowed

/-- An execution that ends in a state passing a test is a run to such a state. -/
theorem exists_run_of_check (start : S) (actions : List A) (test : S → Bool)
    (h : (runChecked step allowed start actions).any test = true) :
    ∃ finish, Run step allowed start actions finish ∧ test finish = true := by
  cases hrun : runChecked step allowed start actions with
  | none =>
    rw [hrun] at h
    cases h
  | some finish =>
    rw [hrun] at h
    exact ⟨finish, (runChecked_eq_some_iff step allowed start finish actions).mp hrun, h⟩

end

/-- An execution under a guard to a state with some property, and what follows for the run. -/
theorem exists_run_imp {step : S → A → Option S} {wider : S → A → Prop} {start : S} {actions : List A} {Q : S → Prop}
    (stricter : S → A → Prop) [∀ state action, Decidable (stricter state action)] (P : S → Prop) [DecidablePred P]
    (h : (runChecked step stricter start actions).any (fun finish => decide (P finish)) = true)
    (hwider : ∀ state action, stricter state action → wider state action)
    (himp : ∀ finish, Run step stricter start actions finish → P finish → Q finish) :
    ∃ finish, Run step wider start actions finish ∧ Q finish := by
  obtain ⟨finish, hrun, htest⟩ := exists_run_of_check step stricter start actions _ h
  exact ⟨finish, hrun.mono hwider, himp finish hrun (of_decide_eq_true htest)⟩

/-- An execution to a state with some property is a run to such a state. -/
theorem exists_run {step : S → A → Option S} {allowed : S → A → Prop}
    [∀ state action, Decidable (allowed state action)] {start : S} {actions : List A} {P : S → Prop} [DecidablePred P]
    (h : (runChecked step allowed start actions).any (fun finish => decide (P finish)) = true) :
    ∃ finish, Run step allowed start actions finish ∧ P finish :=
  exists_run_imp allowed P h (fun _ _ => id) fun _ _ => id

/-- A check of a run whose actions pass a guard in every state. -/
theorem exists_run_of_check_of_forall (step : S → A → Option S) (allowed : S → A → Prop) (start : S)
    (actions : List A) (test : S → Bool) (hallowed : ∀ state, ∀ action ∈ actions, allowed state action)
    (h : (runChecked step (fun _ _ => True) start actions).any test = true) :
    ∃ finish, Run step allowed start actions finish ∧ test finish = true := by
  obtain ⟨finish, hrun, htest⟩ := exists_run_of_check step (fun _ _ => True) start actions test h
  exact ⟨finish, hrun.strengthen hallowed, htest⟩

/-- An execution up to a state that passes a test, one step from there, and an execution from the next
state to one that passes another test. -/
theorem exists_runs_of_check (step : S → A → Option S) (allowed later : S → A → Prop)
    [∀ state action, Decidable (allowed state action)] [∀ state action, Decidable (later state action)]
    (start : S) (first : List A) (action : A) (second : List A) (before after : S → Bool)
    (h : ((runChecked step allowed start first).any fun middle => before middle &&
      (step middle action).any fun next => (runChecked step later next second).any after) = true) :
    ∃ middle next finish, Run step allowed start first middle ∧ before middle = true ∧
      step middle action = some next ∧ Run step later next second finish ∧ after finish = true := by
  obtain ⟨middle, hfirst, hmiddle⟩ := exists_run_of_check step allowed start first _ h
  rw [Bool.and_eq_true, Option.any_eq_true] at hmiddle
  obtain ⟨hbefore, next, hstep, hnext⟩ := hmiddle
  obtain ⟨finish, hsecond, hafter⟩ := exists_run_of_check step later next second after hnext
  exact ⟨middle, next, finish, hfirst, hbefore, hstep, hsecond, hafter⟩

end SevenDB.Common
