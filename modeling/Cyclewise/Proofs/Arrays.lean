import Mathlib.Init

/-!
# Loops that change arrays

A loop that changes an array place by place is, at each place, the loop over the changes of that
place (`getElem?_foldl_modify`).
-/

namespace Cyclewise

/-- Many changes of an array, seen at one place. -/
theorem getElem?_foldl_modify {α κ : Type} (index : κ → Nat) (f : κ → α → α) (ks : List κ)
    (xs : Array α) (i : Nat) :
    (ks.foldl (fun xs k => xs.modify (index k) (f k)) xs)[i]? =
      (xs[i]?).map fun x => ks.foldl (fun x k => if index k = i then f k x else x) x := by
  induction ks generalizing xs with
  | nil => simp
  | cons k ks ih =>
    rw [List.foldl_cons, ih, Array.getElem?_modify]
    by_cases hk : index k = i
    · simp [hk, Function.comp_def]
    · simp [hk]

/-- A change of an entry that a function does not see. -/
theorem map_modify {α β : Type} {xs : Array α} {f : α → α} {g : α → β} {i : Nat}
    (h : ∀ x, g (f x) = g x) : (xs.modify i f).map g = xs.map g := by
  apply Array.ext_getElem?
  intro j
  rw [Array.getElem?_map, Array.getElem?_map, Array.getElem?_modify]
  split
  · rw [Option.map_map]
    exact Option.map_congr fun x _ => h x
  · rfl

theorem modify_mapIdx {α : Type} (f : Nat → α → α) (g : α → α) (xs : Array α) (i : Nat) :
    (xs.mapIdx f).modify i g = xs.mapIdx fun j x => if j = i then g (f j x) else f j x := by
  apply Array.ext_getElem?
  intro j
  rw [Array.getElem?_modify, Array.getElem?_mapIdx, Array.getElem?_mapIdx]
  by_cases hj : i = j
  · simp [hj, Function.comp_def]
  · simp [hj, Ne.symm hj]

theorem getD_replicate {α : Type} (n i : Nat) (d : α) : (Array.replicate n d).getD i d = d := by
  rw [Array.getD_eq_getD_getElem?, Array.getElem?_replicate]
  split <;> rfl

theorem getD_setIfInBounds {α : Type} (xs : Array α) (a : α) {i j : Nat} {d : α}
    (hj : j < xs.size) :
    (xs.setIfInBounds i a).getD j d = if i = j then a else xs.getD j d := by
  rw [Array.getD_eq_getD_getElem?, Array.getD_eq_getD_getElem?, Array.getElem?_setIfInBounds]
  by_cases hij : i = j
  · rw [if_pos hij, if_pos hij, if_pos (hij ▸ hj), Option.getD_some]
  · rw [if_neg hij, if_neg hij]

theorem getD_modify {α : Type} (xs : Array α) (f : α → α) {i j : Nat} {d : α}
    (hj : i = j → j < xs.size) :
    (xs.modify i f).getD j d = if i = j then f (xs.getD j d) else xs.getD j d := by
  rw [Array.getD_eq_getD_getElem?, Array.getD_eq_getD_getElem?, Array.getElem?_modify]
  by_cases hij : i = j
  · rw [if_pos hij, if_pos hij, Array.getElem?_eq_getElem (hj hij)]
    rfl
  · rw [if_neg hij, if_neg hij]

end Cyclewise
