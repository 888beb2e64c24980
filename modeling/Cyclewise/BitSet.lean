/-!
# Sets of numbers as 64-bit words

Number `i` belongs to a `BitSet` when bit `i % 64` of word `i / 64` is set.  A set has as many
words as its history needed, so trailing zero words carry no meaning: `==` disregards them.
`toList` is strictly ascending.  A word past the last one reads as zero; so read, `setWord` changes
one word and `orWords` joins word by word.
-/

namespace Cyclewise

/-- A finite set of natural numbers, 64 to a word, low bits first. -/
structure BitSet where
  words : List UInt64
deriving Inhabited

namespace BitSet

/-! ## Words -/

/-- Whether bit `i` of a word is set. -/
def wordHas (w : UInt64) (i : Nat) : Bool := w.toNat.testBit i

/-- The positions of the set bits of a word, ascending. -/
def wordBits (w : UInt64) : List Nat := (List.range 64).filter (wordHas w)

/-- The number of set bits of a word. -/
def wordSize (w : UInt64) : Nat := if w = 0 then 0 else (List.range 64).countP (wordHas w)

/-- Set the bits of `mask` in word `n`, growing the list with zero words up to that word. -/
def setWord (ws : List UInt64) (n : Nat) (mask : UInt64) : List UInt64 :=
  if n < ws.length then ws.modify n (· ||| mask)
  else ws ++ (List.replicate (n - ws.length) 0 ++ [mask])

/-- Append zero words until there are `n` words. -/
def padWords (n : Nat) (ws : List UInt64) : List UInt64 := ws ++ List.replicate (n - ws.length) 0

/-- Word-wise disjunction, the shorter list standing for zero words at its end. -/
def orWords (ws vs : List UInt64) : List UInt64 :=
  List.zipWith (· ||| ·) (padWords vs.length ws) (padWords ws.length vs)

/-- Equality of word lists up to trailing zero words. -/
def sameWords : List UInt64 → List UInt64 → Bool
  | [], vs => vs.all (· == 0)
  | ws, [] => ws.all (· == 0)
  | w :: ws, v :: vs => w == v && sameWords ws vs

/-- The numbers of the set bits, the first bit of the list having number `base`. -/
def numbersFrom (base : Nat) : List UInt64 → List Nat
  | [] => []
  | w :: ws =>
    if w = 0 then numbersFrom (base + 64) ws
    else (wordBits w).map (base + ·) ++ numbersFrom (base + 64) ws

/-! ## Sets -/

/-- The set without members. -/
def empty : BitSet := ⟨[]⟩

instance : EmptyCollection BitSet := ⟨empty⟩

/-- The set without members, with room for the numbers below `n`. -/
def withCapacity (n : Nat) : BitSet := ⟨List.replicate ((n + 63) / 64) 0⟩

/-- Add a number. -/
def insert (s : BitSet) (i : Nat) : BitSet :=
  ⟨setWord s.words (i / 64) (1 <<< UInt64.ofNat (i % 64))⟩

/-- Whether a number is a member; the words past the last one are zero. -/
def contains (s : BitSet) (i : Nat) : Bool := wordHas (s.words.getD (i / 64) 0) (i % 64)

instance : Membership Nat BitSet := ⟨fun s i => s.contains i = true⟩

instance (s : BitSet) (i : Nat) : Decidable (i ∈ s) := inferInstanceAs (Decidable (_ = true))

/-- Add a number and report whether it was new. -/
def insertNew (s : BitSet) (i : Nat) : Bool × BitSet := (!s.contains i, s.insert i)

/-- The members of either set. -/
def union (s t : BitSet) : BitSet := ⟨orWords s.words t.words⟩

instance : Union BitSet := ⟨union⟩

/-- The members, strictly ascending. -/
def toList (s : BitSet) : List Nat := numbersFrom 0 s.words

/-- The number of members. -/
def size (s : BitSet) : Nat := s.words.foldl (fun n w => n + wordSize w) 0

/-- Whether there is no member. -/
def isEmpty (s : BitSet) : Bool := s.words.all (· == 0)

instance : BEq BitSet := ⟨fun s t => sameWords s.words t.words⟩

/-! ## Lemmas -/

theorem getD_setWord (ws : List UInt64) (n : Nat) (mask : UInt64) (i : Nat) :
    (setWord ws n mask).getD i 0 = if i = n then ws.getD i 0 ||| mask else ws.getD i 0 := by
  unfold setWord
  split
  · next h =>
    by_cases hi : i = n
    · subst hi
      simp [List.getD_eq_getElem?_getD, List.getElem?_eq_getElem h]
    · simp [List.getD_eq_getElem?_getD, hi, Ne.symm hi]
  · next h =>
    simp only [List.getD_eq_getElem?_getD, List.getElem?_append, List.getElem?_replicate,
      List.length_replicate]
    grind

theorem getD_padWords (n : Nat) (ws : List UInt64) (i : Nat) :
    (padWords n ws).getD i 0 = ws.getD i 0 := by
  simp only [padWords, List.getD_eq_getElem?_getD, List.getElem?_append, List.getElem?_replicate]
  grind

theorem length_padWords (n : Nat) (ws : List UInt64) :
    (padWords n ws).length = max ws.length n := by
  simp only [padWords, List.length_append, List.length_replicate]
  omega

theorem getD_orWords (ws vs : List UInt64) (i : Nat) :
    (orWords ws vs).getD i 0 = ws.getD i 0 ||| vs.getD i 0 := by
  rw [← getD_padWords vs.length ws i, ← getD_padWords ws.length vs i]
  have hl : (padWords vs.length ws).length = (padWords ws.length vs).length := by
    simp only [length_padWords]
    omega
  unfold orWords
  generalize padWords vs.length ws = a at *
  generalize padWords ws.length vs = b at *
  simp only [List.getD_eq_getElem?_getD, List.getElem?_zipWith]
  by_cases h : i < a.length
  · simp [List.getElem?_eq_getElem h, List.getElem?_eq_getElem (hl ▸ h)]
  · simp [List.getElem?_eq_none (Nat.le_of_not_lt h),
      List.getElem?_eq_none (hl ▸ Nat.le_of_not_lt h)]

end BitSet

end Cyclewise
