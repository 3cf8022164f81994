import Mathlib.Data.List.TakeWhile
import Mathlib.Logic.Function.Basic
import SevenDB.Common.ByteText

/-!
# Parameters of commands

Commands take their parameters as words among their arguments, in any case of letters. Some words take the
next argument as their value. A parameter whose value is the empty text counts as not given.
-/

namespace SevenDB.Types

open SevenDB.Common

/-- The strings of the source are byte strings. -/
abbrev GoString := List UInt8

inductive Param
  | ch
  | incr
  | gt
  | lt
  | ex
  | px
  | exat
  | pxat
  | xx
  | nx
  | keepttl
  | durable
  | sync
  | persist
  deriving DecidableEq, Repr

namespace Param

def text : Param → String
  | ch => "CH"
  | incr => "INCR"
  | gt => "GT"
  | lt => "LT"
  | ex => "EX"
  | px => "PX"
  | exat => "EXAT"
  | pxat => "PXAT"
  | xx => "XX"
  | nx => "NX"
  | keepttl => "KEEPTTL"
  | durable => "DURABLE"
  | sync => "SYNC"
  | persist => "PERSIST"

def all : List Param := [ch, incr, gt, lt, ex, px, exat, pxat, xx, nx, keepttl, durable, sync, persist]

/-- The parameter that an argument is the word of. -/
def ofText (arg : GoString) : Option Param := all.find? fun p => decide (ascii p.text = toUpper arg)

/-- A parameter takes the next argument as its value. -/
def takesValue : Param → Bool
  | ex | px | exat | pxat => true
  | ch | incr | gt | lt | xx | nx | keepttl | durable | sync | persist => false

end Param

/-- The values of the parameters of a command; the empty text where a parameter is not given. -/
abbrev Params := Param → GoString

def Params.none : Params := fun _ => []

def Params.given (ps : Params) (p : Param) : Bool := decide (ps p ≠ [])

/-- The value of a parameter that takes none. -/
def flagValue : GoString := ascii "true"

/-- Read the parameters that a command accepts and return the arguments that are none of these. A word that
takes a value reads past the end when it is the last argument, which panics. -/
def readParams (accepts : Param → Bool) (ps : Params) : List GoString → Option (Params × List GoString)
  | [] => some (ps, [])
  | arg :: rest =>
    match (Param.ofText arg).filter accepts with
    | some p =>
      if p.takesValue then
        match rest with
        | [] => none
        | value :: rest => readParams accepts (Function.update ps p value) rest
      else readParams accepts (Function.update ps p flagValue) rest
    | none => (readParams accepts ps rest).map fun read => (read.1, arg :: read.2)

variable {arg : GoString} {p : Param}

theorem Param.toUpper_of_ofText (h : ofText arg = some p) : toUpper arg = ascii p.text := by
  have hfound : decide (ascii p.text = toUpper arg) = true :=
    List.find?_some (p := fun q : Param => decide (ascii q.text = toUpper arg)) h
  exact (of_decide_eq_true hfound).symm

/-- A parameter that is given after another one is read was given before, or is the one that is read. -/
theorem Params.given_update {ps : Params} {q : Param} {value : GoString}
    (h : given (Function.update ps q value) p = true) : ps.given p = true ∨ p = q := by
  by_cases hp : p = q
  · exact Or.inr hp
  · rw [given, Function.update_of_ne hp] at h
    exact Or.inl h

/-- A parameter that is given after arguments are read was given before, or one of them is its word. -/
theorem readParams_given {accepts : Param → Bool} {ps qs : Params} {args rest : List GoString}
    (h : readParams accepts ps args = some (qs, rest)) (hgiven : qs.given p = true) :
    ps.given p = true ∨ ∃ arg ∈ args, toUpper arg = ascii p.text := by
  have hread {ps : Params} {arg value : GoString} {q : Param} {later others : List GoString}
      (hq : (Param.ofText arg).filter accepts = some q) (hlater : later ⊆ others)
      (ih : Params.given (Function.update ps q value) p = true ∨ ∃ arg ∈ later, toUpper arg = ascii p.text) :
      ps.given p = true ∨ ∃ a ∈ arg :: others, toUpper a = ascii p.text := by
    rcases ih with hnow | ⟨a, ha, hword⟩
    · rcases Params.given_update hnow with hbefore | rfl
      · exact Or.inl hbefore
      · exact Or.inr ⟨arg, List.mem_cons_self, Param.toUpper_of_ofText (Option.filter_eq_some_iff.mp hq).1⟩
    · exact Or.inr ⟨a, List.mem_cons_of_mem _ (hlater ha), hword⟩
  induction ps, args using readParams.induct accepts generalizing qs rest with
  | case1 ps =>
    cases h
    exact Or.inl hgiven
  | case2 ps arg q hq htakes =>
    rw [readParams, hq] at h
    simp [htakes] at h
  | case3 ps arg q hq htakes value others ih =>
    rw [readParams, hq] at h
    simp only [htakes, if_true] at h
    exact hread hq (List.subset_cons_self _ _) (ih h hgiven)
  | case4 ps arg others q hq htakes ih =>
    rw [readParams, hq] at h
    simp only [htakes] at h
    exact hread hq (List.Subset.refl _) (ih h hgiven)
  | case5 ps arg others hnone ih =>
    rw [readParams, hnone, Option.map_eq_some_iff] at h
    obtain ⟨read, hothers, hpair⟩ := h
    cases hpair
    rcases ih hothers hgiven with hbefore | ⟨a, ha, hword⟩
    · exact Or.inl hbefore
    · exact Or.inr ⟨a, List.mem_cons_of_mem _ ha, hword⟩

/-- An argument is a word that takes a value. -/
def Param.wantsValue (arg : GoString) : Bool := (ofText arg).any takesValue

/-- The number of words that take a value at the end of the arguments. -/
def trailingWords (args : List GoString) : ℕ := (args.reverse.takeWhile Param.wantsValue).length

/-- One more argument in front counts only when all arguments are words that take a value. -/
theorem trailingWords_cons (arg : GoString) (rest : List GoString) :
    trailingWords (arg :: rest) =
      if (arg :: rest).all Param.wantsValue then trailingWords rest + 1 else trailingWords rest := by
  rw [trailingWords, trailingWords, List.reverse_cons, List.takeWhile_append]
  have hall : (rest.reverse.takeWhile Param.wantsValue).length = rest.reverse.length ↔
      rest.all Param.wantsValue = true := by
    rw [← List.all_reverse, List.all_eq_true, ← List.takeWhile_eq_self_iff]
    exact ⟨(List.takeWhile_prefix _).eq_of_length, fun h => by rw [h]⟩
  by_cases hrest : rest.all Param.wantsValue = true
  · rw [if_pos (hall.mpr hrest), List.length_append, ← hall.mpr hrest]
    cases harg : Param.wantsValue arg <;> simp [harg, hrest]
  · rw [if_neg (mt hall.mp hrest), if_neg (by simp_all)]

/-- A word with its value in front does not change whether the number of words at the end is odd. -/
theorem trailingWords_pair (harg : Param.wantsValue arg = true) (value : GoString) (rest : List GoString) :
    trailingWords (arg :: value :: rest) % 2 = trailingWords rest % 2 := by
  rw [trailingWords_cons, trailingWords_cons value]
  by_cases hall : (value :: rest).all Param.wantsValue = true
  · rw [if_pos hall, if_pos (by rw [List.all_cons, harg, hall]; rfl)]
    omega
  · rw [if_neg hall, if_neg (by rw [List.all_cons, harg]; simpa using hall)]

theorem trailingWords_other (harg : Param.wantsValue arg = false) (rest : List GoString) :
    trailingWords (arg :: rest) = trailingWords rest := by
  rw [trailingWords_cons, List.all_cons, harg]
  rfl

/-- Reading the parameters reads past the end exactly when an odd number of words that take a value stand at
the end: each of them but the last is read as a word or as the value of the one before. -/
theorem readParams_eq_none_iff {accepts : Param → Bool} (haccepts : ∀ p : Param, p.takesValue → accepts p)
    (ps : Params) (args : List GoString) : readParams accepts ps args = none ↔ trailingWords args % 2 = 1 := by
  induction ps, args using readParams.induct accepts with
  | case1 ps => simp [readParams, trailingWords]
  | case2 ps arg q hq htakes =>
    have harg : Param.wantsValue arg = true := by
      simp [Param.wantsValue, (Option.filter_eq_some_iff.mp hq).1, htakes]
    simp [readParams, hq, htakes, trailingWords, harg]
  | case3 ps arg q hq htakes value others ih =>
    have harg : Param.wantsValue arg = true := by
      simp [Param.wantsValue, (Option.filter_eq_some_iff.mp hq).1, htakes]
    rw [trailingWords_pair harg, ← ih, readParams, hq]
    simp [htakes]
  | case4 ps arg others q hq htakes ih =>
    have harg : Param.wantsValue arg = false := by
      simp [Param.wantsValue, (Option.filter_eq_some_iff.mp hq).1, htakes]
    rw [trailingWords_other harg, ← ih, readParams, hq]
    simp [htakes]
  | case5 ps arg others hnone ih =>
    have harg : Param.wantsValue arg = false := by
      cases hword : Param.ofText arg with
      | none => simp [Param.wantsValue, hword]
      | some p =>
        have hrefused : accepts p = false := by simpa [hword] using hnone
        have htakes : p.takesValue = false := by
          by_contra htakes
          simp [haccepts p (by simpa using htakes)] at hrefused
        simp [Param.wantsValue, hword, htakes]
    rw [trailingWords_other harg, ← ih, readParams, hnone, Option.map_eq_none_iff]

/-- The parameters of SET and ZADD. -/
def parseParams (args : List GoString) : Option (Params × List GoString) :=
  readParams (fun p => decide (p ≠ .persist)) .none args

end SevenDB.Types
