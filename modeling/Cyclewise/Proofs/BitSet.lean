import Cyclewise.Signal.Set

/-!
# Membership in bit sets

A bit set is read through `i ∈ s`.  Each operation has one membership lemma, and `toList` lists
the members strictly ascending.  Sets of signals inherit all of it.
-/

namespace Cyclewise

namespace BitSet

/-! ## Words -/

theorem wordHas_zero (i : Nat) : wordHas 0 i = false := by
  simp [wordHas]

theorem wordHas_or (w v : UInt64) (i : Nat) :
    wordHas (w ||| v) i = (wordHas w i || wordHas v i) := by
  simp [wordHas, UInt64.toNat_or, Nat.testBit_or]

theorem wordHas_lt {w : UInt64} {i : Nat} (h : wordHas w i = true) : i < 64 := by
  apply Classical.byContradiction
  intro hi
  have hw : w.toNat < 2 ^ i :=
    Nat.lt_of_lt_of_le w.toNat_lt (Nat.pow_le_pow_right (by omega) (Nat.le_of_not_lt hi))
  rw [wordHas, Nat.testBit_lt_two_pow hw] at h
  cases h

/-- The mask of bit `k` has that bit only. -/
theorem wordHas_mask {k : Nat} (hk : k < 64) (i : Nat) :
    wordHas (1 <<< UInt64.ofNat k) i = decide (i = k) := by
  have hpow : 2 ^ k < 2 ^ 64 := Nat.pow_lt_pow_right (by omega) hk
  have hmask : (1 <<< UInt64.ofNat k : UInt64).toNat = 2 ^ k := by
    rw [UInt64.toNat_shiftLeft, UInt64.toNat_ofNat_of_lt' (by simp [UInt64.size]; omega),
      Nat.mod_eq_of_lt hk, UInt64.toNat_one, Nat.one_shiftLeft, Nat.mod_eq_of_lt hpow]
  rw [wordHas, hmask, Nat.testBit_two_pow]
  simp [eq_comm]

theorem mem_wordBits {w : UInt64} {i : Nat} : i ∈ wordBits w ↔ wordHas w i = true := by
  unfold wordBits
  rw [List.mem_filter, List.mem_range]
  exact ⟨And.right, fun h => ⟨wordHas_lt h, h⟩⟩

/-! ## Operations -/

theorem mem_iff {s : BitSet} {i : Nat} :
    i ∈ s ↔ wordHas (s.words.getD (i / 64) 0) (i % 64) = true := Iff.rfl

@[simp] theorem not_mem_empty (i : Nat) : i ∉ (∅ : BitSet) := by
  rw [mem_iff]
  show ¬ wordHas (([] : List UInt64).getD (i / 64) 0) (i % 64) = true
  rw [List.getD_nil, wordHas_zero]
  exact Bool.false_ne_true

@[simp] theorem not_mem_withCapacity (n i : Nat) : i ∉ withCapacity n := by
  have hword : (withCapacity n).words.getD (i / 64) 0 = 0 := by
    simp only [withCapacity, List.getD_eq_getElem?_getD, List.getElem?_replicate]
    split <;> rfl
  rw [mem_iff, hword, wordHas_zero]
  exact Bool.false_ne_true

@[simp] theorem mem_insert {s : BitSet} {i j : Nat} : j ∈ s.insert i ↔ j = i ∨ j ∈ s := by
  rw [mem_iff, mem_iff, insert, getD_setWord]
  split
  · next h =>
    rw [wordHas_or, wordHas_mask (Nat.mod_lt _ (by omega)), Bool.or_eq_true, decide_eq_true_eq]
    have hij : j % 64 = i % 64 ↔ j = i := by omega
    rw [hij, or_comm]
  · next h =>
    have hij : j ≠ i := fun e => h (by rw [e])
    simp [hij]

@[simp] theorem mem_union {s t : BitSet} {i : Nat} : i ∈ s ∪ t ↔ i ∈ s ∨ i ∈ t := by
  rw [mem_iff, mem_iff, mem_iff]
  show wordHas ((orWords s.words t.words).getD (i / 64) 0) (i % 64) = true ↔ _
  rw [getD_orWords, wordHas_or, Bool.or_eq_true]

/-! ## Listing -/

theorem mem_numbersFrom {base : Nat} {ws : List UInt64} {i : Nat} :
    i ∈ numbersFrom base ws ↔
      base ≤ i ∧ wordHas (ws.getD ((i - base) / 64) 0) ((i - base) % 64) = true := by
  induction ws generalizing base with
  | nil => simp [numbersFrom, wordHas_zero]
  | cons w ws ih =>
    -- the first word holds the numbers from `base` to `base + 63`, the others are shifted by one
    have hcons : i ∈ numbersFrom base (w :: ws) ↔
        (∃ b, wordHas w b = true ∧ base + b = i) ∨ i ∈ numbersFrom (base + 64) ws := by
      rw [numbersFrom]
      split
      · next hw => simp [hw, wordHas_zero]
      · simp [mem_wordBits]
    rw [hcons, ih]
    rcases Nat.lt_or_ge (i - base) 64 with hlt | hge
    · rw [Nat.div_eq_of_lt hlt, Nat.mod_eq_of_lt hlt, List.getD_cons_zero]
      constructor
      · rintro (⟨b, hb, rfl⟩ | ⟨hle, -⟩)
        · exact ⟨by omega, by rwa [Nat.add_sub_cancel_left]⟩
        · omega
      · rintro ⟨hle, hb⟩
        exact .inl ⟨i - base, hb, by omega⟩
    · have hdiv : (i - base) / 64 = (i - (base + 64)) / 64 + 1 := by omega
      have hmod : (i - base) % 64 = (i - (base + 64)) % 64 := by omega
      rw [hdiv, hmod, List.getD_cons_succ]
      constructor
      · rintro (⟨b, hb, rfl⟩ | ⟨hle, hb⟩)
        · have := wordHas_lt hb
          omega
        · exact ⟨by omega, hb⟩
      · rintro ⟨hle, hb⟩
        exact .inr ⟨by omega, hb⟩

@[simp] theorem mem_toList {s : BitSet} {i : Nat} : i ∈ s.toList ↔ i ∈ s := by
  unfold toList
  rw [mem_numbersFrom, mem_iff]
  simp

theorem pairwise_numbersFrom (base : Nat) (ws : List UInt64) :
    (numbersFrom base ws).Pairwise (· < ·) := by
  induction ws generalizing base with
  | nil => exact List.Pairwise.nil
  | cons w ws ih =>
    unfold numbersFrom
    split
    · exact ih (base + 64)
    · have hfirst : ((wordBits w).map (base + ·)).Pairwise (· < ·) := by
        rw [List.pairwise_map]
        have hbits : (wordBits w).Pairwise (· < ·) := List.pairwise_lt_range.filter _
        exact hbits.imp fun h => by omega
      refine List.pairwise_append.2 ⟨hfirst, ih (base + 64), fun a ha b hb => ?_⟩
      obtain ⟨k, hk, rfl⟩ := List.mem_map.1 ha
      have := wordHas_lt (mem_wordBits.1 hk)
      have := (mem_numbersFrom.1 hb).1
      omega

/-- The members are listed strictly ascending. -/
theorem pairwise_toList (s : BitSet) : s.toList.Pairwise (· < ·) := pairwise_numbersFrom 0 s.words

end BitSet

namespace SignalSet

@[simp] theorem not_mem_empty (a : SignalId) : a ∉ (∅ : SignalSet) := BitSet.not_mem_empty a.index

theorem forall_mem_empty {D : SignalId → Prop} : ∀ a ∈ (∅ : SignalSet), D a :=
  fun a ha => absurd ha (not_mem_empty a)

@[simp] theorem mem_insert {s : SignalSet} {a b : SignalId} : b ∈ s.insert a ↔ b = a ∨ b ∈ s := by
  have h : b = a ↔ b.index = a.index := by
    cases a
    cases b
    simp
  rw [h]
  exact BitSet.mem_insert

@[simp] theorem mem_union {s t : SignalSet} {a : SignalId} : a ∈ s ∪ t ↔ a ∈ s ∨ a ∈ t :=
  BitSet.mem_union

theorem contains_eq_true {s : SignalSet} {a : SignalId} : s.contains a = true ↔ a ∈ s := Iff.rfl

theorem mem_insertAll {as : List SignalId} {s : SignalSet} {a : SignalId} :
    a ∈ s.insertAll as ↔ a ∈ as ∨ a ∈ s := by
  unfold insertAll
  induction as generalizing s with
  | nil => simp
  | cons b as ih =>
    rw [List.foldl_cons, ih, mem_insert, List.mem_cons, or_left_comm, or_assoc]

@[simp] theorem mem_ofList {as : List SignalId} {a : SignalId} : a ∈ ofList as ↔ a ∈ as := by
  unfold ofList
  rw [mem_insertAll]
  simp

@[simp] theorem mem_toList {s : SignalSet} {a : SignalId} : a ∈ s.toList ↔ a ∈ s := by
  unfold toList
  rw [List.mem_map]
  constructor
  · rintro ⟨i, hi, rfl⟩
    exact BitSet.mem_toList.1 hi
  · intro h
    exact ⟨a.index, BitSet.mem_toList.2 h, rfl⟩

/-- The members are listed by strictly ascending number. -/
theorem pairwise_toList (s : SignalSet) : s.toList.Pairwise (·.index < ·.index) :=
  List.pairwise_map.2 s.bits.pairwise_toList

end SignalSet

end Cyclewise
