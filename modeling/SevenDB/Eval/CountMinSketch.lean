import Mathlib.Data.BitVec
import Mathlib.Data.List.ProdSigma
import Mathlib.Algebra.BigOperators.Fin
import Mathlib.Algebra.Order.BigOperators.Group.Finset

/-!
# Count-min sketches

A sketch adds a count to one cell in each row and to its total, and a merge makes all cells and the total the
weighted sums of those of its sources. So every row sums to the total, whatever numbers are used. The words of the
code are the exact numbers modulo 2^64, and as long as the exact total is below 2^64 no cell of a key is below its
frequency.
-/

namespace SevenDB.Eval

/-- A sketch: its matrix and its total. -/
structure CountMinSketch (depth width : ℕ) (R : Type) where
  matrix : Fin depth → Fin width → R
  count : R

/-- What happens to named sketches of equal dimensions: a key is counted, or one becomes the merge of some. -/
inductive SketchAction (N K : Type)
  | update (name : N) (key : K) (count : BitVec 64)
  | merge (name : N) (sources : List (N × BitVec 64))

variable {depth width : ℕ} {N K R : Type}

namespace CountMinSketch

/-- The column of a key in a row. -/
def matrixPosition [NeZero width] (baseHashes : K → BitVec 32 × BitVec 32) (key : K) (row : Fin depth) : Fin width :=
  Fin.ofNat width (((baseHashes key).1.toNat + (baseHashes key).2.toNat * row) % 2 ^ 64)

variable [DecidableEq N]

/-- What a merge reads: a source that is the destination itself is read from a copy made before. -/
def mergeSource (originalKey : N) (originalCopy : CountMinSketch depth width R)
    (sketches : N → CountMinSketch depth width R) (key : N) : CountMinSketch depth width R :=
  if key = originalKey then originalCopy else sketches key

/-- While only the destination has changed, every source is read as it was before. -/
theorem mergeSource_update (sketches : N → CountMinSketch depth width R) (name : N) (c : CountMinSketch depth width R)
    (key : N) : mergeSource name (sketches name) (Function.update sketches name c) key = sketches key := by
  rw [mergeSource]
  split
  · next heq => rw [heq]
  · next hne => rw [Function.update_of_ne hne]

section Semiring

variable [CommSemiring R] (position : K → Fin depth → Fin width)

/-- Count a key. -/
def updateMatrix (c : CountMinSketch depth width R) (key : K) (count : R) : CountMinSketch depth width R :=
  ⟨fun row col => if col = position key row then c.matrix row col + count else c.matrix row col, c.count + count⟩

def addCell (c : CountMinSketch depth width R) (cell : Fin depth × Fin width) (amount : R) :
    CountMinSketch depth width R :=
  { c with matrix := fun row col => if (row, col) = cell then c.matrix row col + amount else c.matrix row col }

section Merge

variable (originalKey : N) (originalCopy : CountMinSketch depth width R) (sources : List (N × R))
  (sketches : N → CountMinSketch depth width R)

/-- Add the weighted cells of all sources to one cell of the destination, in place. -/
def mergeCell (cell : Fin depth × Fin width) : N → CountMinSketch depth width R :=
  sources.foldl (fun sketches s => Function.update sketches originalKey ((sketches originalKey).addCell cell
    (s.2 * (mergeSource originalKey originalCopy sketches s.1).matrix cell.1 cell.2))) sketches

/-- Add the weighted totals of all sources to the total of the destination, in place. -/
def mergeCounts : N → CountMinSketch depth width R :=
  sources.foldl (fun sketches s => Function.update sketches originalKey { sketches originalKey with
    count := (sketches originalKey).count + s.2 * (mergeSource originalKey originalCopy sketches s.1).count }) sketches

/-- Merge weighted sources into a sketch: its cells are reset and summed up, and then its total. -/
def mergeMatrices : N → CountMinSketch depth width R :=
  let originalCopy := sketches originalKey
  let reset := Function.update sketches originalKey { originalCopy with matrix := fun _ _ => 0 }
  let summed := (List.finRange depth ×ˢ List.finRange width).foldl (mergeCell originalKey originalCopy sources) reset
  mergeCounts originalKey originalCopy sources
    (Function.update summed originalKey { summed originalKey with count := 0 })

variable (c : CountMinSketch depth width R)

theorem mergeCell_update (cell : Fin depth × Fin width) :
    mergeCell originalKey (sketches originalKey) sources (Function.update sketches originalKey c) cell =
      Function.update sketches originalKey
        (c.addCell cell (sources.map fun s => s.2 * (sketches s.1).matrix cell.1 cell.2).sum) := by
  rw [mergeCell]
  induction sources generalizing c with
  | nil => simp [addCell]
  | cons s sources ih =>
    rw [List.foldl_cons, Function.update_self, Function.update_idem, mergeSource_update, ih]
    congr 1
    simp only [addCell, List.map_cons, List.sum_cons, mk.injEq, and_true]
    funext row col
    split
    · rw [add_assoc]
    · rfl

theorem mergeCounts_update :
    mergeCounts originalKey (sketches originalKey) sources (Function.update sketches originalKey c) =
      Function.update sketches originalKey
        { c with count := c.count + (sources.map fun s => s.2 * (sketches s.1).count).sum } := by
  rw [mergeCounts]
  induction sources generalizing c with
  | nil => simp
  | cons s sources ih =>
    rw [List.foldl_cons, Function.update_self, Function.update_idem, mergeSource_update, ih, List.map_cons,
      List.sum_cons, add_assoc]

theorem foldl_mergeCell {cells : List (Fin depth × Fin width)} (hcells : cells.Nodup) :
    cells.foldl (mergeCell originalKey (sketches originalKey) sources) (Function.update sketches originalKey c) =
      Function.update sketches originalKey { c with matrix := fun row col => c.matrix row col +
        if (row, col) ∈ cells then (sources.map fun s => s.2 * (sketches s.1).matrix row col).sum else 0 } := by
  induction cells generalizing c with
  | nil => simp
  | cons cell cells ih =>
    rw [List.nodup_cons] at hcells
    rw [List.foldl_cons, mergeCell_update, ih _ hcells.2]
    congr 1
    simp only [addCell, mk.injEq, and_true, List.mem_cons]
    funext row col
    -- The loop comes to a cell once, so it is not among the later ones.
    by_cases heq : (row, col) = cell
    · subst heq
      simp [hcells.1]
    · simp [heq]

/-- A merge writes the weighted sums of what its sources held before, and nothing else. -/
theorem mergeMatrices_eq : mergeMatrices originalKey sources sketches = Function.update sketches originalKey
    ⟨fun row col => (sources.map fun s => s.2 * (sketches s.1).matrix row col).sum,
      (sources.map fun s => s.2 * (sketches s.1).count).sum⟩ := by
  have hnodup : (List.finRange depth ×ˢ List.finRange width).Nodup :=
    (List.nodup_finRange depth).product (List.nodup_finRange width)
  simp only [mergeMatrices]
  rw [foldl_mergeCell _ _ _ _ hnodup, Function.update_idem, mergeCounts_update]
  simp

end Merge

/-- One action, with words taken for other numbers. -/
def step (word : BitVec 64 → R) (sketches : N → CountMinSketch depth width R) :
    SketchAction N K → N → CountMinSketch depth width R
  | .update name key count => Function.update sketches name ((sketches name).updateMatrix position key (word count))
  | .merge name sources => mergeMatrices name (sources.map fun s => (s.1, word s.2)) sketches

/-- Sketches after some actions, from empty ones on. -/
def after (word : BitVec 64 → R) (actions : List (SketchAction N K)) : N → CountMinSketch depth width R :=
  actions.foldl (step position word) fun _ => ⟨fun _ _ => 0, 0⟩

theorem after_concat (word : BitVec 64 → R) (actions : List (SketchAction N K)) (action : SketchAction N K) :
    after position word (actions ++ [action]) = step position word (after position word actions) action := by
  rw [after, List.foldl_append]
  rfl

/-- Every row sums to the total. -/
theorem sum_row (word : BitVec 64 → R) (actions : List (SketchAction N K)) (name : N) (row : Fin depth) :
    ∑ col, (after position word actions name).matrix row col = (after position word actions name).count := by
  induction actions using List.reverseRecOn generalizing name with
  | nil => simp [after]
  | append_singleton actions action ih =>
    rw [after_concat]
    cases action with
    | update target key count =>
      simp only [step, Function.update_apply]
      split
      · have hcell (col : Fin width) (cell : R) : (if col = position key row then cell + word count else cell) =
            cell + if col = position key row then word count else 0 := by split <;> simp
        simp [updateMatrix, hcell, Finset.sum_add_distrib, ih target]
      · exact ih name
    | merge target sources =>
      simp only [step, mergeMatrices_eq, Function.update_apply]
      split
      · induction sources with
        | nil => simp
        | cons s sources ihs =>
          simp only [List.map_cons, List.sum_cons, Finset.sum_add_distrib, ← Finset.mul_sum, ih]
          rw [ihs]
      · exact ih name

end Semiring

section Words

variable (position : K → Fin depth → Fin width)

/-- An estimate: the least of the cells of a key. -/
def estimateCount (c : CountMinSketch depth width (BitVec 64)) (key : K) : BitVec 64 :=
  (List.finRange depth).foldl (fun count row =>
    if c.matrix row (position key row) < count then c.matrix row (position key row) else count) (BitVec.allOnes 64)

/-- The words of exact counts. -/
def toWords (c : CountMinSketch depth width ℕ) : CountMinSketch depth width (BitVec 64) :=
  ⟨fun row col => c.matrix row col, c.count⟩

/-- The sketches of the code have the words of the exact ones. -/
theorem after_eq_toWords (actions : List (SketchAction N K)) :
    after position id actions = fun name => toWords (after position BitVec.toNat actions name) := by
  induction actions using List.reverseRecOn with
  | nil => simp [after, toWords]
  | append_singleton actions action ih =>
    rw [after_concat, after_concat, ih]
    funext name
    cases action with
    | update target key count =>
      simp only [step, Function.update_apply]
      split
      · simp [updateMatrix, toWords, apply_ite (Nat.cast : ℕ → BitVec 64)]
      · rfl
    | merge target sources =>
      simp only [step, mergeMatrices_eq, Function.update_apply]
      split
      · simp [toWords, Nat.cast_list_sum, Function.comp_def]
      · rfl

variable [DecidableEq K]

/-- The true weighted frequencies of keys after one more action. -/
def countTruly (frequency : N → K → ℕ) : SketchAction N K → N → K → ℕ
  | .update name key count =>
    Function.update frequency name (Function.update (frequency name) key (frequency name key + count.toNat))
  | .merge name sources =>
    Function.update frequency name fun key => (sources.map fun s => s.2.toNat * frequency s.1 key).sum

/-- The true weighted frequencies of keys after some actions. -/
def trueFrequency (actions : List (SketchAction N K)) : N → K → ℕ := actions.foldl countTruly fun _ _ => 0

/-- A frequency is at most the exact total and the exact cells of its key. -/
theorem trueFrequency_le (actions : List (SketchAction N K)) (name : N) (key : K) :
    trueFrequency actions name key ≤ (after position BitVec.toNat actions name).count ∧
      ∀ row, trueFrequency actions name key ≤
        (after position BitVec.toNat actions name).matrix row (position key row) := by
  induction actions using List.reverseRecOn generalizing name key with
  | nil => simp [trueFrequency]
  | append_singleton actions action ih =>
    have hconcat : trueFrequency (actions ++ [action]) = countTruly (trueFrequency actions) action := by
      rw [trueFrequency, List.foldl_append]
      rfl
    rw [hconcat, after_concat]
    cases action with
    | update target other count =>
      simp only [step, countTruly, Function.update_apply]
      split
      · obtain ⟨hcount, hcells⟩ := ih target key
        simp only [updateMatrix, Function.update_apply]
        by_cases hkey : key = other
        · simpa [← hkey] using ⟨hcount, hcells⟩
        · rw [if_neg hkey]
          refine ⟨hcount.trans (Nat.le_add_right _ _), fun row => (hcells row).trans ?_⟩
          split <;> omega
      · exact ih name key
    | merge target sources =>
      simp only [step, countTruly, mergeMatrices_eq, Function.update_apply]
      split
      · simp only [List.map_map]
        refine ⟨List.sum_le_sum fun s _ => ?_, fun row => List.sum_le_sum fun s _ => ?_⟩
        · exact Nat.mul_le_mul_left _ (ih s.1 key).1
        · exact Nat.mul_le_mul_left _ ((ih s.1 key).2 row)
      · exact ih name key

/-- The least of some words is not below a bound of all of them. -/
theorem le_foldl_min {bound : ℕ} {rows : List (Fin depth)} {cell : Fin depth → BitVec 64}
    (hcells : ∀ row, bound ≤ (cell row).toNat) {count : BitVec 64} (hcount : bound ≤ count.toNat) :
    bound ≤ (rows.foldl (fun count row => if cell row < count then cell row else count) count).toNat := by
  refine List.foldlRecOn (motive := fun count : BitVec 64 => bound ≤ count.toNat) rows _ hcount fun _ hle row _ => ?_
  split
  · exact hcells row
  · exact hle

end Words

/-- After every sequence of increments and merges of sketches of equal dimensions: every row sums to the total in
words, a merge leaves the weighted sums of the sources in every cell and in the total, and while the exact total of a
sketch is below 2^64 no estimate is below the true frequency. -/
theorem countMinSketch_bounds [NeZero width] [DecidableEq K] (baseHashes : K → BitVec 32 × BitVec 32)
    (actions : List (SketchAction N K)) (name : N) :
    let position : K → Fin depth → Fin width := matrixPosition baseHashes
    let sketches := after position id actions
    (∀ row, ∑ col, (sketches name).matrix row col = (sketches name).count) ∧
    (∀ sources, mergeMatrices name sources sketches = Function.update sketches name
      ⟨fun row col => (sources.map fun s => s.2 * (sketches s.1).matrix row col).sum,
        (sources.map fun s => s.2 * (sketches s.1).count).sum⟩) ∧
    ((after position BitVec.toNat actions name).count < 2 ^ 64 →
      ∀ key, trueFrequency actions name key ≤ ((sketches name).estimateCount position key).toNat) := by
  intro position sketches
  refine ⟨sum_row position id actions name, (mergeMatrices_eq name · sketches),
    fun htotal key => ?_⟩
  obtain ⟨hcount, hcells⟩ := trueFrequency_le position actions name key
  refine le_foldl_min (fun row => ?_) ?_
  · -- No cell exceeds the total of its row, so its word is exact.
    have hcell : (after position BitVec.toNat actions name).matrix row (position key row) < 2 ^ 64 := by
      refine lt_of_le_of_lt ?_ htotal
      rw [← sum_row position BitVec.toNat actions name row]
      exact Finset.single_le_sum (fun _ _ => Nat.zero_le _) (Finset.mem_univ _)
    simp only [sketches, after_eq_toWords, toWords]
    rw [BitVec.natCast_eq_ofNat, BitVec.toNat_ofNat, Nat.mod_eq_of_lt hcell]
    exact hcells row
  · rw [BitVec.toNat_allOnes]
    omega

/-- The bound at a sketch that is merged with itself. -/
theorem countMinSketch_bounds_self_merge :
    let position : Unit → Fin 2 → Fin 3 := matrixPosition fun _ => (1, 2)
    let actions := [SketchAction.update () () 3, .merge () [((), 2), ((), 1)]]
    trueFrequency actions () () = 9 ∧
      trueFrequency actions () () ≤
        ((after position id actions ()).estimateCount position ()).toNat :=
  ⟨by decide, (countMinSketch_bounds _ _ ()).2.2 (by decide) ()⟩

end CountMinSketch

end SevenDB.Eval
