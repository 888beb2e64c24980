import Mathlib.Data.List.Nodup
import Mathlib.Data.List.Perm.Subperm
import Mathlib.Data.List.Sort

/-!
# Lists of numbered items

Items that ascend by their numbers do not repeat, and a list of them is told by its members.  Items
without repetition are no more than the numbers that they can have.
-/

namespace Cyclewise

variable {α : Type}

theorem nodup_of_ascending {index : α → Nat} {as : List α}
    (h : as.Pairwise (index · < index ·)) : as.Nodup := by
  refine h.imp fun {a b} hlt heq => ?_
  rw [heq] at hlt
  omega

/-- Equal ascending lists are told by their members. -/
theorem eq_of_ascending {index : α → Nat} {as as' : List α}
    (has : as.Pairwise (index · < index ·)) (has' : as'.Pairwise (index · < index ·))
    (h : ∀ a, a ∈ as ↔ a ∈ as') : as = as' := by
  have : Std.Asymm fun a a' : α => index a < index a' := ⟨fun _ _ => Nat.lt_asymm⟩
  exact has.eq_of_mem_iff has' h

/-- Items numbered from zero on do not repeat, and their numbers are below their count. -/
theorem nodup_and_lt_of_range {number : α → Nat} {as : List α} {n : Nat}
    (h : as.map number = List.range n) : as.Nodup ∧ ∀ a ∈ as, number a < as.length := by
  have hnodup : (as.map number).Nodup := by
    rw [h]
    exact List.nodup_range
  have hlength : as.length = n := by
    have hlengths := congrArg List.length h
    rwa [List.length_map, List.length_range] at hlengths
  refine ⟨hnodup.of_map _, fun a ha => ?_⟩
  have hmem : number a ∈ as.map number := List.mem_map_of_mem ha
  rw [h] at hmem
  rw [hlength]
  exact List.mem_range.1 hmem

/-- Items that are told apart by numbers below `bound` are no more than these. -/
theorem length_le_of_nodup {number : α → Nat} (hnumber : ∀ a b, number a = number b → a = b)
    {bound : Nat} {as : List α} (has : as.Nodup) (hlt : ∀ a ∈ as, number a < bound) :
    as.length ≤ bound := by
  have hnodup : (as.map number).Nodup := has.map fun a b => hnumber a b
  have hsubset : as.map number ⊆ List.range bound := by
    intro i hi
    obtain ⟨a, ha, rfl⟩ := List.mem_map.1 hi
    exact List.mem_range.2 (hlt a ha)
  have hlength := (List.subperm_of_subset hnodup hsubset).length_le
  rwa [List.length_map, List.length_range] at hlength

end Cyclewise
