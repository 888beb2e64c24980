/-!
# Ascending lists without repetition

`ascendingBy key xs` lists the elements of `xs` once each, by increasing key.  It is built by
insertion: `insertBy key a` puts `a` before the first element with a greater key and leaves the
list alone when the key is already there.
-/

namespace Cyclewise

variable {α : Type}

/-- Insert into a list that ascends by `key`, unless the key is present. -/
def insertBy (key : α → Nat) (a : α) : List α → List α
  | [] => [a]
  | b :: rest =>
    if key a < key b then a :: b :: rest
    else if key a = key b then b :: rest
    else b :: insertBy key a rest

/-- The elements of a list, ascending by `key`, one for each key. -/
def ascendingBy (key : α → Nat) (xs : List α) : List α :=
  xs.foldr (insertBy key) []

/-! ## Lemmas -/

theorem mem_insertBy {key : α → Nat} (hk : ∀ a b, key a = key b → a = b) {a x : α} {xs : List α} :
    x ∈ insertBy key a xs ↔ x = a ∨ x ∈ xs := by
  induction xs with
  | nil => simp [insertBy]
  | cons b rest ih =>
    unfold insertBy
    split
    · simp
    · split
      · next h => rw [hk a b h]; simp
      · simp only [List.mem_cons, ih]
        constructor
        · rintro (h | h | h)
          · exact .inr (.inl h)
          · exact .inl h
          · exact .inr (.inr h)
        · rintro (h | h | h)
          · exact .inr (.inl h)
          · exact .inl h
          · exact .inr (.inr h)

theorem mem_ascendingBy {key : α → Nat} (hk : ∀ a b, key a = key b → a = b) {x : α} {xs : List α} :
    x ∈ ascendingBy key xs ↔ x ∈ xs := by
  induction xs with
  | nil => simp [ascendingBy]
  | cons a xs ih =>
    rw [List.mem_cons, ← ih]
    exact mem_insertBy hk

theorem pairwise_insertBy {key : α → Nat} {a : α} {xs : List α}
    (h : xs.Pairwise (key · < key ·)) : (insertBy key a xs).Pairwise (key · < key ·) := by
  have hall : ∀ (ys : List α), ∀ y ∈ insertBy key a ys, y = a ∨ y ∈ ys := by
    intro ys
    induction ys with
    | nil => simp [insertBy]
    | cons b ys ih =>
      intro y hy
      unfold insertBy at hy
      split at hy
      · simpa using hy
      · split at hy
        · exact .inr hy
        · rcases List.mem_cons.1 hy with h | h
          · exact .inr (h ▸ List.mem_cons_self)
          · rcases ih y h with h | h
            · exact .inl h
            · exact .inr (List.mem_cons_of_mem _ h)
  induction xs with
  | nil => simp [insertBy]
  | cons b rest ih =>
    rw [List.pairwise_cons] at h
    unfold insertBy
    split
    · next hab =>
      refine List.pairwise_cons.2 ⟨fun y hy => ?_, List.pairwise_cons.2 h⟩
      rcases List.mem_cons.1 hy with h' | h'
      · exact h' ▸ hab
      · exact Nat.lt_trans hab (h.1 y h')
    · split
      · exact List.pairwise_cons.2 h
      · refine List.pairwise_cons.2 ⟨fun y hy => ?_, ih h.2⟩
        rcases hall rest y hy with h' | h'
        · subst h'; omega
        · exact h.1 y h'

/-- The result ascends strictly by the key. -/
theorem pairwise_ascendingBy (key : α → Nat) (xs : List α) :
    (ascendingBy key xs).Pairwise (key · < key ·) := by
  induction xs with
  | nil => exact List.Pairwise.nil
  | cons a xs ih => exact pairwise_insertBy ih

theorem perm_insertBy {key : α → Nat} {a : α} {xs : List α} (h : ∀ x ∈ xs, key a ≠ key x) :
    (insertBy key a xs).Perm (a :: xs) := by
  induction xs with
  | nil => exact List.Perm.refl _
  | cons b rest ih =>
    unfold insertBy
    by_cases hab : key a < key b
    · rw [if_pos hab]
    · rw [if_neg hab, if_neg (h b List.mem_cons_self)]
      have hrest := ih fun x hx => h x (List.mem_cons_of_mem b hx)
      exact (hrest.cons b).trans (List.Perm.swap a b rest)

/-- Elements with different keys are all kept. -/
theorem perm_ascendingBy {key : α → Nat} {xs : List α} (h : xs.Pairwise (key · ≠ key ·)) :
    (ascendingBy key xs).Perm xs := by
  induction xs with
  | nil => exact List.Perm.refl _
  | cons a xs ih =>
    obtain ⟨ha, hxs⟩ := List.pairwise_cons.1 h
    have hperm := ih hxs
    exact (perm_insertBy fun x hx => ha x (hperm.mem_iff.1 hx)).trans (hperm.cons a)

end Cyclewise
