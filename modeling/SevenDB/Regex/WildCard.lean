import Mathlib.Data.List.Forall2
import Mathlib.Data.Prod.Lex

/-!
# Matching with wildcards

The match goes through pattern and key at once and remembers the last star, to take one more character of the key
for it when the rest does not match. A character of the pattern is compared with the key before it is seen to be a
star, so that a star in the key is taken for the one in the pattern, which is then not remembered.
-/

namespace SevenDB.Regex

def star : UInt8 := 42

def question : UInt8 := 63

/-- What a character of a pattern stands for. -/
def StandsFor (a : UInt8) (piece : List UInt8) : Prop :=
  if a = star then True else if a = question then piece.length = 1 else piece = [a]

/-- The language of a pattern: the keys that are put together from what its characters stand for. -/
inductive InLanguage : List UInt8 → List UInt8 → Prop
  | nil : InLanguage [] []
  | cons {a : UInt8} {piece pattern key : List UInt8} (hpiece : StandsFor a piece) (hrest : InLanguage pattern key) :
    InLanguage (a :: pattern) (piece ++ key)

/-- What the match makes of the language: a star that comes to a star of the key stands for that star alone. -/
inductive Taken : List UInt8 → List UInt8 → Prop
  | nil : Taken [] []
  | cons {a : UInt8} {piece pattern key : List UInt8} (hpiece : StandsFor a piece)
    (halone : a = star → (piece ++ key).head? = some star → piece = [star]) (hrest : Taken pattern key) :
    Taken (a :: pattern) (piece ++ key)

section Language

variable {a c : UInt8} {pattern key rest front passed : List UInt8}

/-- The match takes nothing that is not in the language. -/
theorem Taken.inLanguage (h : Taken pattern key) : InLanguage pattern key := by
  induction h with
  | nil => exact .nil
  | cons hpiece _ _ ih => exact .cons hpiece ih

theorem Taken.of_star (h : Taken (star :: pattern) key) : ∃ n, Taken pattern (key.drop n) := by
  obtain _ | @⟨_, piece, _, rest, -, -, hrest⟩ := h
  exact ⟨piece.length, by simpa using hrest⟩

/-- A star that does not come to a star of the key stands for any front of it. -/
theorem taken_star (hkey : key.head? ≠ some star) : Taken (star :: pattern) key ↔ ∃ n, Taken pattern (key.drop n) := by
  refine ⟨Taken.of_star, ?_⟩
  rintro ⟨n, hrest⟩
  rw [← List.take_append_drop n key]
  refine .cons (by simp [StandsFor]) (fun _ hhead => absurd ?_ hkey) hrest
  rwa [List.take_append_drop] at hhead

/-- A character of the pattern that accepts one of the key stands for it, also when both are stars. -/
theorem taken_cons (haccepts : a = question ∨ a = c) : Taken (a :: pattern) (c :: rest) ↔ Taken pattern rest := by
  constructor
  · intro h
    generalize hkey : c :: rest = key at h
    obtain _ | @⟨_, piece, _, behind, hpiece, halone, hrest⟩ := h
    have hlength : piece.length = 1 := by
      by_cases hstar : a = star
      · have hc : c = star := haccepts.elim (fun hquestion => absurd (hstar.symm.trans hquestion) (by decide))
          (fun hsame => hsame.symm.trans hstar)
        rw [halone hstar (by rw [← hkey, hc]; rfl)]
        rfl
      · rw [StandsFor, if_neg hstar] at hpiece
        split at hpiece
        · exact hpiece
        · rw [hpiece]
          rfl
    obtain ⟨d, rfl⟩ := List.length_eq_one_iff.mp hlength
    rw [List.singleton_append, List.cons.injEq] at hkey
    rwa [hkey.2]
  · intro hrest
    have hpiece : StandsFor a [c] := by
      rcases haccepts with rfl | rfl
      · rfl
      · rw [StandsFor]
        split_ifs <;> simp
    refine .cons hpiece (fun _ hhead => ?_) hrest
    rw [List.singleton_append, List.head?_cons, Option.some.injEq] at hhead
    rw [hhead]

/-- A key whose first character is not accepted by a pattern that does not start with a star. -/
theorem not_taken (haccepts : ¬∃ a ∈ pattern.head?, a = question ∨ a = c) (hstar : pattern.head? ≠ some star) :
    ¬Taken pattern (c :: rest) := by
  intro h
  generalize hkey : c :: rest = key at h
  obtain _ | @⟨a, piece, pattern, behind, hpiece, -, -⟩ := h
  · cases hkey
  · rw [List.head?_cons, Ne, Option.some.injEq] at hstar
    rw [StandsFor, if_neg hstar] at hpiece
    refine haccepts ⟨a, rfl, ?_⟩
    split at hpiece
    · next hquestion => exact .inl hquestion
    · rw [hpiece, List.singleton_append, List.cons.injEq] at hkey
      exact .inr hkey.1.symm

theorem taken_nil : Taken pattern [] ↔ pattern.all (· = star) = true := by
  induction pattern with
  | nil => simpa using Taken.nil
  | cons a pattern ih =>
    by_cases ha : a = star
    · rw [ha, taken_star (by simp)]
      simp [ih]
    · simp only [List.all_cons, ha, decide_false, Bool.false_and, Bool.false_eq_true, iff_false]
      intro h
      generalize hkey : [] = key at h
      obtain _ | @⟨_, piece, _, behind, hpiece, -, -⟩ := h
      rw [StandsFor, if_neg ha, (List.append_eq_nil_iff.mp hkey.symm).1] at hpiece
      split at hpiece <;> simp at hpiece

/-- When the characters of a front were accepted one by one, what is behind it in the pattern is behind it in the
key as well, however late the front begins. -/
theorem Taken.drop_front (hfront : List.Forall₂ (fun a c => a = question ∨ a = c) front passed) {n : ℕ}
    (h : Taken (front ++ pattern) ((passed ++ key).drop n)) : ∃ m, Taken pattern (key.drop m) := by
  induction hfront generalizing n with
  | nil => exact ⟨n, h⟩
  | @cons a c front passed haccepts _ ih =>
    rcases n with _ | n
    · exact ih (n := 0) ((taken_cons haccepts).mp h)
    rw [List.cons_append, List.cons_append, List.drop_succ_cons] at h
    cases hkey : (passed ++ key).drop n with
    | nil =>
      rw [hkey, taken_nil, List.all_cons, Bool.and_eq_true, ← taken_nil] at h
      exact ih (n := n) (hkey ▸ h.2)
    | cons d behind =>
      rw [hkey] at h
      by_cases hd : a = question ∨ a = d
      · refine ih (n := n + 1) ?_
        rw [← List.tail_drop, hkey]
        exact (taken_cons hd).mp h
      · by_cases hstar : a = star
        · rw [hstar, taken_star (by simpa [hstar] using fun h => hd (.inr (hstar.trans h.symm))), ← hkey] at h
          obtain ⟨m, h⟩ := h
          rw [List.drop_drop] at h
          exact ih h
        · exact absurd h (not_taken (by simpa using hd) (by simpa using hstar))

end Language

theorem saved_self (pattern key : List UInt8) :
    ∀ s ∈ some (pattern, key), pattern.length ≤ s.1.length ∧ key.length ≤ s.2.length := by
  rintro _ ⟨⟩
  exact ⟨le_rfl, le_rfl⟩

/-- The loop of a match, on what is left of pattern and key. For the last star that was passed it remembers what is
left of the pattern behind it and of the key behind the characters taken for it. -/
def loop (pattern key : List UInt8) (saved : Option (List UInt8 × List UInt8))
    (hsaved : ∀ s ∈ saved, pattern.length ≤ s.1.length ∧ key.length ≤ s.2.length) : Bool :=
  match key with
  | [] => pattern.all (· = star)
  | c :: rest =>
    if haccepts : ∃ a ∈ pattern.head?, a = question ∨ a = c then
      loop pattern.tail rest saved fun s hs => by grind
    else if hstar : pattern.head? = some star then
      loop pattern.tail (c :: rest) (some (pattern.tail, c :: rest)) (saved_self _ _)
    else
      match saved with
      | none => false
      | some (behind, taken) => loop behind taken.tail (some (behind, taken.tail)) (saved_self _ _)
termination_by
  toLex (saved.elim (pattern.length + 1) (·.1.length), toLex (saved.elim 0 (·.2.length), key.length))
decreasing_by
  all_goals simp only [Prod.Lex.toLex_lt_toLex]
  · cases saved <;> cases pattern <;> simp_all
  · cases saved <;> cases pattern <;> grind
  · simp_all; omega

def wildCardMatch (pattern key : List UInt8) : Bool := loop pattern key none nofun

/-- What is left is taken, or it is from the last star on when more is taken for it. -/
def Answer (pattern key : List UInt8) (saved : Option (List UInt8 × List UInt8)) : Prop :=
  Taken pattern key ∨ ∃ s ∈ saved, ∃ n, Taken s.1 (s.2.drop (n + 1))

/-- Since the last star that is remembered, characters were accepted one by one. -/
def Compared (pattern key : List UInt8) (saved : Option (List UInt8 × List UInt8)) : Prop :=
  ∀ s ∈ saved, ∃ front passed, s = (front ++ pattern, passed ++ key) ∧
    List.Forall₂ (fun a c => a = question ∨ a = c) front passed

variable {pattern key : List UInt8} {saved : Option (List UInt8 × List UInt8)}

/-- When more is taken for the last star, less of the key is left for the rest of the pattern. -/
theorem Compared.drop (h : Compared pattern key saved) (hanswer : Answer pattern key saved) :
    ∃ n, Taken pattern (key.drop n) := by
  rcases hanswer with htaken | ⟨s, hs, n, htaken⟩
  · exact ⟨0, htaken⟩
  · obtain ⟨front, passed, rfl, hfront⟩ := h s hs
    exact htaken.drop_front hfront

/-- A star that has just been passed. -/
theorem compared_self : Compared pattern key (some (pattern, key)) := by
  rintro _ ⟨⟩
  exact ⟨[], [], rfl, .nil⟩

/-- After a star the answer is that of a star. -/
theorem answer_self : Answer pattern key (some (pattern, key)) ↔ ∃ n, Taken pattern (key.drop n) := by
  constructor
  · rintro (htaken | ⟨_, ⟨⟩, n, htaken⟩)
    · exact ⟨0, htaken⟩
    · exact ⟨n + 1, htaken⟩
  · rintro ⟨_ | n, htaken⟩
    · exact .inl htaken
    · exact .inr ⟨_, rfl, n, htaken⟩

/-- The loop gives the answer. -/
theorem loop_answer (pattern key : List UInt8) (saved : Option (List UInt8 × List UInt8))
    (hsaved : ∀ s ∈ saved, pattern.length ≤ s.1.length ∧ key.length ≤ s.2.length)
    (hcompared : Compared pattern key saved) : loop pattern key saved hsaved = true ↔ Answer pattern key saved := by
  fun_induction loop pattern key saved hsaved with
  | case1 pattern saved _ =>
    rw [← taken_nil]
    refine ⟨.inl, fun hanswer => ?_⟩
    obtain ⟨n, htaken⟩ := hcompared.drop hanswer
    simpa using htaken
  | case2 pattern saved c rest _ haccepts _ ih =>
    obtain ⟨a, ha, haccepts⟩ := haccepts
    obtain ⟨pattern, rfl⟩ := List.head?_eq_some_iff.mp ha
    rw [ih, Answer, Answer, taken_cons haccepts]
    · rfl
    · intro s hs
      obtain ⟨front, passed, rfl, hfront⟩ := hcompared s hs
      exact ⟨front ++ [a], passed ++ [c], by simp, List.rel_append hfront (.cons haccepts .nil)⟩
  | case3 pattern saved c rest _ haccepts hstar _ ih =>
    obtain ⟨pattern, rfl⟩ := List.head?_eq_some_iff.mp hstar
    have hc : (c :: rest).head? ≠ some star := by
      rintro ⟨⟩
      exact haccepts ⟨star, rfl, .inr rfl⟩
    refine (ih compared_self).trans ⟨fun hanswer => .inl ((taken_star hc).mpr (answer_self.mp hanswer)), ?_⟩
    intro hanswer
    rw [List.tail_cons, answer_self]
    rcases hanswer with htaken | ⟨s, hs, n, htaken⟩
    · exact (taken_star hc).mp htaken
    · obtain ⟨front, passed, rfl, hfront⟩ := hcompared s hs
      obtain ⟨m, htaken⟩ := htaken.drop_front hfront
      obtain ⟨k, htaken⟩ := htaken.of_star
      exact ⟨m + k, by rwa [List.drop_drop] at htaken⟩
  | case4 pattern c rest haccepts hstar _ =>
    simp [Answer, not_taken haccepts hstar]
  | case5 pattern c rest haccepts hstar behind taken _ _ ih =>
    rw [ih compared_self, answer_self, Answer, or_iff_right (not_taken haccepts hstar)]
    simp

/-- For every pattern and key, the match is right exactly when the key is not in the language of the pattern, or is
put together so that a star of the pattern that comes to a star of the key stands for that star alone. -/
theorem wildCardMatch_language_iff (pattern key : List UInt8) :
    (wildCardMatch pattern key = true ↔ InLanguage pattern key) ↔ (InLanguage pattern key → Taken pattern key) := by
  have hmatch : wildCardMatch pattern key = true ↔ Taken pattern key :=
    (loop_answer pattern key none nofun nofun).trans (or_iff_left (by simp))
  rw [hmatch]
  exact ⟨Iff.mpr, fun h => ⟨Taken.inLanguage, h⟩⟩

/-- A star alone does not match a key of a star and a letter. -/
theorem wildCardMatch_star_key : wildCardMatch [star] [star, 97] = false ∧ InLanguage [star] [star, 97] := by
  constructor
  · rw [wildCardMatch, loop, dif_pos ⟨star, rfl, .inr rfl⟩, loop, dif_neg (by simp), dif_neg (by simp)]
  · have hpiece : StandsFor star [star, 97] := by simp [StandsFor]
    exact .cons hpiece .nil

end SevenDB.Regex
