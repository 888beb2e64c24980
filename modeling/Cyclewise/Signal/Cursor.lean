import Cyclewise.Signal.Set

/-!
# Walking through a set of signals

A `Cursor` stands in one word of a set and knows which of its bits are left.  `next` gives the
lowest of them and clears it; where no bit is left, it passes on to the next word with one.  An
identifier has 32 bits, so the number of a bit is cut to them.  A `Building` records the operations
that a set comes from.
-/

namespace Cyclewise

namespace BitSet

/-- The number of the lowest set bit of a word; 64 for the word without one. -/
def lowBit (w : UInt64) : Nat := w.toBitVec.ctz.toNat

/-- Join the words of the second list into the first ones of the first list. -/
def joinWords : List UInt64 → List UInt64 → List UInt64
  | w :: ws, v :: vs => (w ||| v) :: joinWords ws vs
  | ws, [] => ws
  | [], _ :: _ => []

/-- Add the members of another set: grow to its number of words, then join them in place. -/
def unionWith (s t : BitSet) : BitSet := ⟨joinWords (padWords t.words.length s.words) t.words⟩

end BitSet

namespace SignalSet

/-- Add the members of another set in place. -/
def unionWith (s t : SignalSet) : SignalSet := ⟨s.bits.unionWith t.bits⟩

/-! ## Walking -/

/-- A place in the words of a set, with the bits of its word that are left. -/
structure Cursor where
  words : List UInt64
  index : Nat
  left : UInt64

/-- The place before all members. -/
def start (s : SignalSet) : Cursor := ⟨s.bits.words, 0, s.bits.words.headD 0⟩

/-- The next member, if there is one, and the place after it. -/
def Cursor.next (c : Cursor) : Option SignalId × Cursor :=
  if c.left = 0 then
    if h : c.index + 1 < c.words.length then
      Cursor.next { c with index := c.index + 1, left := c.words[c.index + 1] }
    else (none, { c with index := c.index + 1 })
  else
    (some ⟨(c.index * 64 + BitSet.lowBit c.left) % UInt32.size⟩,
      { c with left := c.left &&& (c.left - 1) })
termination_by c.words.length - c.index

/-! ## Operations -/

/-- The operations that a set comes from, the last one first. -/
inductive Building where
  | empty
  | insert (b : Building) (a : SignalId)
  | extend (b : Building) (as : List SignalId)
  | union (b b' : Building)
  | unionWith (b b' : Building)

namespace Building

/-- The set that the operations give. -/
def set : Building → SignalSet
  | empty => ∅
  | insert b a => b.set.insert a
  | extend b as => b.set.insertAll as
  | union b b' => b.set ∪ b'.set
  | unionWith b b' => b.set.unionWith b'.set

/-- The signals that the operations put in. -/
def ids : Building → List SignalId
  | empty => []
  | insert b a => a :: b.ids
  | extend b as => as ++ b.ids
  | union b b' => b.ids ++ b'.ids
  | unionWith b b' => b.ids ++ b'.ids

end Building

end SignalSet

end Cyclewise
