import SevenDB.Common.RisingStream
import SevenDB.Types.SortedSetLib

/-!
# The ranks of a range

ZRANGE asks for the rank of the first member it returns and counts on from there. That gives the true ranks of
members that stand next to each other in the order of the set. When the bounds are the other way round the members
come in the reverse order, and the count goes up where the ranks go down.
-/

namespace SevenDB.Types.SortedSetLib

open SevenDB.Common

section Sorted

variable {α β : Type*} [LinearOrder β] {key : α → β} {l : List α}

/-- The elements of a sorted list from a bound on are a final part of it. -/
theorem filter_ge_final (hl : l.Pairwise fun a b => key a ≤ key b) (lo : β) :
    (l.filter fun x => decide (lo ≤ key x)) <:+ l := by
  induction l with
  | nil => exact List.suffix_rfl
  | cons x rest ih =>
    obtain ⟨hx, hrest⟩ := List.pairwise_cons.mp hl
    by_cases hlo : lo ≤ key x
    · have hall : ∀ y ∈ x :: rest, lo ≤ key y := by
        simpa [hlo] using fun y hy => hlo.trans (hx y hy)
      rw [List.filter_eq_self.mpr (by simpa using hall)]
    · rw [List.filter_cons_of_neg (by simpa using hlo)]
      exact (ih hrest).trans (List.suffix_cons x rest)

/-- The elements of a sorted list between two bounds stand next to each other. -/
theorem filter_between_infix (hl : l.Pairwise fun a b => key a ≤ key b) (lo hi : β) :
    (l.filter fun x => decide (lo ≤ key x ∧ key x ≤ hi)) <:+: l := by
  have hsplit : (l.filter fun x => decide (lo ≤ key x ∧ key x ≤ hi)) =
      (l.filter fun x => decide (lo ≤ key x)).filter fun x => decide (key x ≤ hi) := by
    simp [List.filter_filter, Bool.and_comm]
  rw [hsplit]
  exact (filter_le_isPrefix (hl.filter _) hi).isInfix.trans (filter_ge_final hl lo).isInfix

end Sorted

variable (lib : SortedSetLib) (s : lib.Carrier) (start stop : Int64) (byScore : Bool)

/-- The members in the order of the set. -/
abbrev listed : List (Int64 × GoString) := (lib.scores s).listed

/-- The members that a range returns with their scores. -/
def ranged : List (Int64 × GoString) :=
  if byScore then lib.getByScoreRange s start stop else lib.getByRankRange s start stop

/-- The bounds of a range are the other way round. -/
def reversed : Bool :=
  if byScore then decide (stop < start) else decide (lib.resolve s stop < lib.resolve s start)

/-- The elements returned stand in the order of the set, and the rank of each is its place there. -/
def RanksTrue : Prop :=
  ((lib.zrange s start stop byScore).map fun e => (e.score, e.member)).Sublist (lib.listed s) ∧
    ∀ e ∈ lib.zrange s start stop byScore,
      ∃ i, (lib.listed s)[i]? = some (e.score, e.member) ∧ e.rank = Int64.ofNat (i + 1)

/-- The start does not exceed the stop, or at most one member is asked for: by score, at most one has a score between
the bounds, and by rank, the stop stands for the last member or one behind it. -/
def AsksInOrder : Prop :=
  if byScore then
    start ≤ stop ∨ ((lib.listed s).filter fun entry => decide (stop ≤ entry.1 ∧ entry.1 ≤ start)).length ≤ 1
  else lib.resolve s start ≤ lib.resolve s stop ∨ (lib.listed s).length ≤ lib.resolve s stop

theorem map_zrange :
    ((lib.zrange s start stop byScore).map fun e => (e.score, e.member)) = lib.ranged s start stop byScore := by
  simp [zrange, SortedSet.elementsFrom, ranged, List.map_map, Function.comp_def]

/-- A range is a part of the list of members, or its reverse when the bounds are the other way round. -/
theorem ranged_infix :
    if lib.reversed s start stop byScore then (lib.ranged s start stop byScore).reverse <:+: lib.listed s
    else lib.ranged s start stop byScore <:+: lib.listed s := by
  have hscores : (lib.listed s).Pairwise fun a b => a.1.toInt ≤ b.1.toInt := by
    refine (lib.scores s).listed_pairwise.imp fun {a b} hab => ?_
    rcases Prod.Lex.le_iff.mp hab with hlt | ⟨heq, _⟩
    · exact hlt.le
    · exact heq.le
  have hslice : ∀ m n, ((lib.listed s).take m).drop n <:+: lib.listed s := fun m n =>
    (List.drop_suffix n _).isInfix.trans (List.take_prefix m _).isInfix
  cases byScore
  · simp only [reversed, ranged, lib.rankRange_eq, SortedSet.betweenRanks, Bool.false_eq_true, if_false,
      decide_eq_true_eq]
    split_ifs
    · simpa using hslice _ _
    · exact hslice _ _
  · simp only [reversed, ranged, lib.scoreRange_eq, SortedSet.getByScoreRange, if_true, decide_eq_true_eq,
      Int64.le_iff_toInt_le]
    split_ifs
    · simpa using filter_between_infix hscores _ _
    · exact filter_between_infix hscores _ _

/-- The members are asked for in order, or the bounds are the other way round around at most one of them. -/
theorem asksInOrder_iff :
    lib.AsksInOrder s start stop byScore ↔
      lib.reversed s start stop byScore = false ∨ (lib.ranged s start stop byScore).length ≤ 1 := by
  cases byScore
  · have hpos := lib.one_le_resolve s stop
    simp only [AsksInOrder, listed, reversed, ranged, lib.rankRange_eq, SortedSet.betweenRanks, Bool.false_eq_true,
      if_false, decide_eq_false_iff_not, not_lt]
    refine or_congr_right' fun hexceeds => ?_
    rw [if_pos (not_le.mp hexceeds), List.length_reverse, List.length_drop, List.length_take]
    omega
  · simp only [AsksInOrder, reversed, ranged, lib.scoreRange_eq, SortedSet.getByScoreRange, if_true,
      decide_eq_false_iff_not, Int64.not_lt]
    refine or_congr_right' fun hexceeds => ?_
    rw [if_pos (Int64.not_le.mp hexceeds), List.length_reverse]

/-- A range that is a part of the list of members has their true ranks. -/
theorem ranksTrue_of_infix (h : lib.ranged s start stop byScore <:+: lib.listed s) :
    lib.RanksTrue s start stop byScore := by
  refine ⟨by rw [map_zrange]; exact h.sublist, fun e he => ?_⟩
  obtain ⟨before, after, hlisted⟩ := h
  have hplace : ∀ i x, (lib.ranged s start stop byScore)[i]? = some x → (lib.listed s)[before.length + i]? = some x := by
    intro i x hx
    rw [← hlisted, List.append_assoc, List.getElem?_append_right (Nat.le_add_right _ _), Nat.add_sub_cancel_left,
      List.getElem?_append_left (List.getElem?_eq_some_iff.mp hx).1]
    exact hx
  obtain ⟨⟨x, i⟩, hx, rfl⟩ := List.mem_map.mp he
  have hi : (lib.ranged s start stop byScore)[i]? = some x := List.mk_mem_zipIdx_iff_getElem?.mp hx
  refine ⟨before.length + i, hplace i x hi, ?_⟩
  have hpos : 0 < (lib.ranged s start stop byScore).length := Nat.zero_lt_of_lt (List.getElem?_eq_some_iff.mp hi).1
  obtain ⟨first, hfirst⟩ : ∃ first, (lib.ranged s start stop byScore)[0]? = some first :=
    ⟨_, List.getElem?_eq_getElem hpos⟩
  have hrank := lib.findRank_eq s _ _ _ (hplace 0 first hfirst)
  have hhead : (lib.ranged s start stop byScore).head? = some first := by rw [List.head?_eq_getElem?, hfirst]
  rw [ranged] at hhead
  simp only [hhead, Option.map_some, Option.getD_some, hrank, Nat.add_zero, Nat.add_right_comm]

/-- The ranks that ZRANGE returns are the true ones, in the order of the set, exactly when the start does not exceed the
stop or at most one member is asked for. -/
theorem zrange_ranks_iff : lib.RanksTrue s start stop byScore ↔ lib.AsksInOrder s start stop byScore := by
  have hinfix := lib.ranged_infix s start stop byScore
  rw [asksInOrder_iff]
  split_ifs at hinfix with hreversed
  · simp only [hreversed, Bool.true_eq_false, false_or]
    constructor
    · intro h
      have hup : (lib.ranged s start stop byScore).Pairwise NotAfter :=
        (lib.scores s).listed_pairwise.sublist (by rw [← map_zrange]; exact h.1)
      have hdown : (lib.ranged s start stop byScore).Pairwise fun a b => NotAfter b a :=
        List.pairwise_reverse.mp ((lib.scores s).listed_pairwise.sublist hinfix.sublist)
      have hnodup : (lib.ranged s start stop byScore).Nodup :=
        List.nodup_reverse.mp ((lib.scores s).listed_nodup.of_map.sublist hinfix.sublist)
      match lib.ranged s start stop byScore, hup, hdown, hnodup with
      | [], _, _, _ | [_], _, _, _ => simp
      | a :: b :: rest, hup, hdown, hnodup =>
        have hab : a = b := antisymm (r := NotAfter) (List.rel_of_pairwise_cons hup List.mem_cons_self)
          (List.rel_of_pairwise_cons hdown List.mem_cons_self)
        simp [hab] at hnodup
    · intro hshort
      apply ranksTrue_of_infix
      have hsame : (lib.ranged s start stop byScore).reverse = lib.ranged s start stop byScore := by
        match lib.ranged s start stop byScore, hshort with
        | [], _ | [_], _ => rfl
      rwa [hsame] at hinfix
  · exact iff_of_true (lib.ranksTrue_of_infix s start stop byScore hinfix) (Or.inl (by simpa using hreversed))

def twoMembers : SortedSet := (∅ : SortedSet).insert [97] 1 |>.insert [98] 2

/-- From rank 2 down to rank 1 the first member is said to have the third rank. -/
theorem zrange_ranks_reversed :
    SortedSet.tableLib.zrange twoMembers 2 1 false = [⟨[98], 2, 2⟩, ⟨[97], 1, 3⟩] ∧
      ¬SortedSet.tableLib.RanksTrue twoMembers 2 1 false :=
  ⟨by decide, fun h => absurd h.1 (by decide)⟩

end SevenDB.Types.SortedSetLib
