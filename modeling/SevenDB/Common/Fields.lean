import Mathlib.Data.List.Basic

/-!
# Fields of a text

The fields of a list are its longest non-empty parts without separators. Words that are joined by a separator
come back as the fields exactly when none of them is empty and none has a separator in it.
-/

namespace SevenDB.Common

variable {α : Type*} (separator : α → Bool)

/-- The parts between separators, without the empty ones. -/
def fields (text : List α) : List (List α) := (text.splitOnP separator).filter fun part => !part.isEmpty

/-- A word is not empty and has no separator in it. -/
def IsWord (word : List α) : Prop := word ≠ [] ∧ ∀ x ∈ word, separator x = false

instance [DecidableEq α] (word : List α) : Decidable (IsWord separator word) := inferInstanceAs (Decidable (_ ∧ _))

variable {separator}

theorem separator_eq_false_of_mem_splitOnP {text part : List α} (hpart : part ∈ text.splitOnP separator) :
    ∀ x ∈ part, separator x = false := by
  induction text generalizing part with
  | nil =>
    rw [List.splitOnP_nil, List.mem_singleton] at hpart
    simp [hpart]
  | cons a rest ih =>
    rw [List.splitOnP_cons_eq_if_modifyHead] at hpart
    obtain ⟨first, others, hsplit⟩ := List.exists_cons_of_ne_nil (List.splitOnP_ne_nil separator rest)
    rw [hsplit] at hpart ih
    split at hpart
    · rcases List.mem_cons.mp hpart with rfl | hrest
      · simp
      · exact ih hrest
    · next ha =>
      rw [List.modifyHead_cons] at hpart
      rcases List.mem_cons.mp hpart with rfl | hrest
      · intro x hx
        rcases List.mem_cons.mp hx with rfl | hfirst
        · simpa using ha
        · exact ih List.mem_cons_self x hfirst
      · exact ih (List.mem_cons_of_mem first hrest)

theorem isWord_of_mem_fields {text word : List α} (h : word ∈ fields separator text) : IsWord separator word := by
  obtain ⟨hpart, hempty⟩ := List.mem_filter.mp h
  refine ⟨?_, separator_eq_false_of_mem_splitOnP hpart⟩
  simpa using hempty

theorem fields_append_cons {word : List α} (hword : IsWord separator word) {s : α} (hs : separator s = true)
    (rest : List α) : fields separator (word ++ s :: rest) = word :: fields separator rest := by
  rw [fields, List.splitOnP_append_cons_of_forall_mem hword.2 s hs, List.filter_cons_of_pos, fields]
  simpa using hword.1

theorem fields_intercalate {words : List (List α)} (hwords : ∀ word ∈ words, IsWord separator word) {s : α}
    (hs : separator s = true) : fields separator ([s].intercalate words) = words := by
  induction words with
  | nil => rfl
  | cons word rest ih =>
    have hword := hwords word List.mem_cons_self
    cases rest with
    | nil =>
      rw [List.intercalate_singleton, fields, List.splitOnP_eq_singleton hword.2]
      simp [hword.1]
    | cons next others =>
      rw [List.intercalate_cons_cons, List.append_assoc, List.singleton_append, fields_append_cons hword hs]
      exact congrArg _ (ih fun other hother => hwords other (List.mem_cons_of_mem word hother))

end SevenDB.Common
