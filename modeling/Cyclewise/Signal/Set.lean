import Cyclewise.Id
import Cyclewise.BitSet

/-!
# Sets of signals

A `SignalSet` is a bit set over signal numbers; it holds what a block reads or writes.  `toList`
lists the members by ascending number, and `==` compares members only.
-/

namespace Cyclewise

/-- A finite set of signals. -/
structure SignalSet where
  bits : BitSet
deriving Inhabited

namespace SignalSet

/-- The set without members. -/
def empty : SignalSet := ⟨∅⟩

instance : EmptyCollection SignalSet := ⟨empty⟩

/-- Add a signal. -/
def insert (s : SignalSet) (a : SignalId) : SignalSet := ⟨s.bits.insert a.index⟩

/-- Whether a signal is a member. -/
def contains (s : SignalSet) (a : SignalId) : Bool := s.bits.contains a.index

instance : Membership SignalId SignalSet := ⟨fun s a => s.contains a = true⟩

instance (s : SignalSet) (a : SignalId) : Decidable (a ∈ s) :=
  inferInstanceAs (Decidable (_ = true))

/-- The members of either set. -/
def union (s t : SignalSet) : SignalSet := ⟨s.bits.union t.bits⟩

instance : Union SignalSet := ⟨union⟩

/-- Add every signal of a list. -/
def insertAll (s : SignalSet) (as : List SignalId) : SignalSet := as.foldl insert s

/-- The set of the members of a list. -/
def ofList (as : List SignalId) : SignalSet := insertAll ∅ as

/-- The members by ascending number. -/
def toList (s : SignalSet) : List SignalId := s.bits.toList.map SignalId.mk

/-- The number of members. -/
def size (s : SignalSet) : Nat := s.bits.size

/-- Whether there is no member. -/
def isEmpty (s : SignalSet) : Bool := s.bits.isEmpty

instance : BEq SignalSet := ⟨fun s t => s.bits == t.bits⟩

end SignalSet

end Cyclewise
