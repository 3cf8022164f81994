import Mathlib.Data.Set.BooleanAlgebra
import Mathlib.Data.Set.Disjoint
import Mathlib.Order.CompletePartialOrder

/-!
# Programs with a footprint

A program takes a state to an output and a new state. It acts on a set of places when it leaves every other
place alone, and when its output and what it writes depend on no other place. Programs that act on disjoint
sets of places can be exchanged.
-/

namespace SevenDB.Common

variable {S K V O P : Type*} {read : S → K → V}

/-- A program acts on a set of places. -/
structure ActsOn (read : S → K → V) (places : Set K) (program : S → O × S) : Prop where
  frame (s : S) (k : K) : k ∉ places → read (program s).2 k = read s k
  output (s t : S) : (∀ k ∈ places, read s k = read t k) → (program s).1 = (program t).1
  written (s t : S) : (∀ k ∈ places, read s k = read t k) →
    ∀ k ∈ places, read (program s).2 k = read (program t).2 k

/-- Run a program for its state, where some outputs count as failures. -/
def guarded (ok : O → Bool) (program : S → O × S) (s : S) : Option S :=
  if ok (program s).1 then some (program s).2 else none

namespace ActsOn

variable {p q : Set K} {f : S → O × S} {g : S → P × S}

/-- A program that acts on disjoint places leaves those of another alone. -/
theorem frame_of_disjoint (hg : ActsOn read q g) (hdisjoint : Disjoint p q) (s : S) (k : K) (hk : k ∈ p) :
    read (g s).2 k = read s k := by
  apply hg.frame
  exact Set.disjoint_left.mp hdisjoint hk

/-- The output of a program is the same after another one on disjoint places. -/
theorem output_after (hf : ActsOn read p f) (hg : ActsOn read q g) (hdisjoint : Disjoint p q) (s : S) :
    (f (g s).2).1 = (f s).1 := by
  apply hf.output
  exact hg.frame_of_disjoint hdisjoint s

/-- What a program leaves at each place when another one on disjoint places runs before it or after it. -/
theorem read_comm (hf : ActsOn read p f) (hg : ActsOn read q g) (hdisjoint : Disjoint p q) (s : S) (k : K) :
    read (f (g s).2).2 k = read (g (f s).2).2 k := by
  by_cases hp : k ∈ p
  · rw [hf.written _ s (hg.frame_of_disjoint hdisjoint s) k hp, hg.frame_of_disjoint hdisjoint _ k hp]
  · rw [hf.frame _ k hp]
    by_cases hq : k ∈ q
    · exact (hg.written _ s (hf.frame_of_disjoint hdisjoint.symm s) k hq).symm
    · rw [hg.frame _ k hq, hg.frame _ k hq, hf.frame _ k hp]

/-- Programs on disjoint places can be exchanged, and both succeed in either order or in none. -/
theorem guarded_comm (hext : ∀ s t, (∀ k, read s k = read t k) → s = t) (hf : ActsOn read p f)
    (hg : ActsOn read q g) (hdisjoint : Disjoint p q) (okf : O → Bool) (okg : P → Bool) (s : S) :
    (guarded okf f s).bind (guarded okg g) = (guarded okg g s).bind (guarded okf f) := by
  have hfg := hf.output_after hg hdisjoint s
  have hgf := hg.output_after hf hdisjoint.symm s
  have hcomm : (f (g s).2).2 = (g (f s).2).2 := hext _ _ (hf.read_comm hg hdisjoint s)
  unfold guarded
  cases hokf : okf (f s).1 with
  | true =>
    cases hokg : okg (g s).1 with
    | true => simp [hfg, hgf, hokf, hokg, hcomm]
    | false => simp [hgf, hokg]
  | false =>
    cases hokg : okg (g s).1 with
    | true => simp [hfg, hokf]
    | false => simp

end ActsOn

end SevenDB.Common
