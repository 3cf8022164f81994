import Mathlib.Data.Finmap
import Mathlib.Data.List.Sort

/-!
# Finite tables with value semantics

Tables are Mathlib's finite maps at a constant value type. Three operations are added to the
library: deleting every key that a test rejects, changing every value, and listing the keys in a
given total order. They are independent of the order in which the entries happen to be stored, so a
traversal of a table needs no iteration order in its definition.
-/

namespace SevenDB.Common

/-- A finite table from keys to values, with extensional equality. -/
abbrev Table (K V : Type*) := Finmap (fun _ : K => V)

variable {K V : Type*}

/-- Keep the entries whose key passes the test. -/
def Table.filterKeys (keep : K → Bool) (table : Table K V) : Table K V where
  entries := table.entries.filter (fun entry => keep entry.1 = true)
  nodupKeys := by
    rcases table with ⟨entries, hnodup⟩
    induction entries using Quotient.inductionOn with
    | h entries =>
      exact List.Nodup.sublist (List.filter_sublist.map Sigma.fst) hnodup

/-- Apply to every value a function that depends on its key. -/
def Table.mapKeyed {W : Type*} (change : K → V → W) (table : Table K V) : Table K W where
  entries := table.entries.map (fun entry => ⟨entry.1, change entry.1 entry.2⟩)
  nodupKeys := by
    rcases table with ⟨entries, hnodup⟩
    induction entries using Quotient.inductionOn with
    | h entries =>
      change ((entries.map fun entry => (⟨entry.1, change entry.1 entry.2⟩ : Sigma fun _ : K => W)).map
        Sigma.fst).Nodup
      rw [List.map_map]
      exact hnodup

def Table.mapValues {W : Type*} (change : V → W) (table : Table K V) : Table K W where
  entries := table.entries.map (fun entry => ⟨entry.1, change entry.2⟩)
  nodupKeys := by
    exact (Table.mapKeyed (fun _ => change) table).nodupKeys

section Lookup

variable [DecidableEq K]

namespace Table

@[simp] theorem lookup_filterKeys (keep : K → Bool) (table : Table K V) (key : K) :
    Finmap.lookup key (filterKeys keep table) = if keep key then table.lookup key else none := by
  apply Option.ext
  intro value
  rw [← Option.mem_def, Finmap.mem_lookup_iff, filterKeys, Multiset.mem_filter,
    ← Finmap.mem_lookup_iff]
  by_cases hkeep : keep key = true
  · simp [hkeep]
  · simp [hkeep]

@[simp] theorem lookup_mapKeyed {W : Type*} (change : K → V → W) (table : Table K V) (key : K) :
    Finmap.lookup key (mapKeyed change table) = (table.lookup key).map (change key) := by
  apply Option.ext
  intro value
  rw [← Option.mem_def, Finmap.mem_lookup_iff, mapKeyed, Multiset.mem_map,
    Option.map_eq_some_iff]
  constructor
  · rintro ⟨⟨other, old⟩, hentry, heq⟩
    cases heq
    exact ⟨old, Finmap.mem_lookup_iff.mpr hentry, rfl⟩
  · rintro ⟨old, hlookup, rfl⟩
    exact ⟨⟨key, old⟩, Finmap.mem_lookup_iff.mp hlookup, rfl⟩

@[simp] theorem lookup_mapValues {W : Type*} (change : V → W) (table : Table K V) (key : K) :
    Finmap.lookup key (mapValues change table) = (table.lookup key).map change :=
  lookup_mapKeyed (fun _ => change) table key

variable (table : Table K V) (key : K)

theorem lookup_insert_eq_ite (other : K) (value : V) :
    Finmap.lookup other (table.insert key value) = if other = key then some value else table.lookup other := by
  by_cases h : other = key
  · subst h
    simp
  · simp [h]

/-- An insertion changes nothing exactly when the key has the value already. -/
theorem insert_eq_self_iff (value : V) : table.insert key value = table ↔ table.lookup key = some value := by
  constructor
  · intro h
    rw [← h]
    exact Finmap.lookup_insert table
  · intro h
    apply Finmap.ext_lookup
    intro other
    rw [lookup_insert_eq_ite]
    split
    · next heq => rw [heq, h]
    · rfl

/-- Adding an element to the set of a key changes nothing exactly when it is in the set already. -/
theorem insert_member_eq_self_iff {A : Type*} [DecidableEq A] (table : Table K (Finset A)) (key : K) (a : A) :
    table.insert key (insert a ((table.lookup key).getD ∅)) = table ↔ a ∈ (table.lookup key).getD ∅ := by
  rw [insert_eq_self_iff]
  cases table.lookup key with
  | none => simp
  | some members => rw [Option.getD_some, Option.some.injEq, eq_comm, Finset.insert_eq_self]

theorem lookup_erase_eq_ite (other : K) :
    Finmap.lookup other (table.erase key) = if other = key then none else table.lookup other := by
  by_cases h : other = key
  · subst h
    simp
  · simp [h]

theorem eq_empty_of_keys (h : table.keys = ∅) : table = ∅ := by
  apply Finmap.ext_lookup
  intro key
  rw [Finmap.lookup_empty, Finmap.lookup_eq_none, ← Finmap.mem_keys, h]
  exact Finset.notMem_empty key

/-- The empty table has no keys, and no other table has this property. -/
theorem keys_eq_empty_iff : table.keys = ∅ ↔ ∀ key, table.lookup key = none := by
  constructor
  · intro h key
    rw [eq_empty_of_keys table h, Finmap.lookup_empty]
  · intro h
    apply Finset.eq_empty_of_forall_notMem
    intro key hkey
    exact (Finmap.lookup_eq_none.mp (h key)) (Finmap.mem_keys.mp hkey)

end Table

end Lookup

section Sorting

variable (before : K → K → Prop) [DecidableRel before] [IsTrans K before] [Std.Antisymm before]
  [Std.Total before]

/-- List a multiset in the given order. Insertion sort is used because it evaluates structurally. -/
def sortedList (values : Multiset K) : List K :=
  Quot.liftOn values (List.insertionSort before) fun left right hperm =>
    (((List.perm_insertionSort before left).trans hperm).trans
      (List.perm_insertionSort before right).symm).eq_of_pairwise' (r := before)
        (List.pairwise_insertionSort before left) (List.pairwise_insertionSort before right)

@[simp] theorem mem_sortedList {values : Multiset K} {value : K} :
    value ∈ sortedList before values ↔ value ∈ values :=
  Quot.inductionOn values fun _ => List.mem_insertionSort before

@[simp] theorem length_sortedList (values : Multiset K) :
    (sortedList before values).length = values.card :=
  Quot.inductionOn values fun _ => List.length_insertionSort before _

theorem sortedList_pairwise (values : Multiset K) : (sortedList before values).Pairwise before :=
  Quot.inductionOn values (List.pairwise_insertionSort before)

theorem sortedList_nodup {values : Multiset K} (hnodup : values.Nodup) :
    (sortedList before values).Nodup := by
  induction values using Quot.inductionOn with
  | h values => exact (List.perm_insertionSort before values).nodup_iff.mpr hnodup

end Sorting

end SevenDB.Common
