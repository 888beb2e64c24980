/-!
# Disjoint sets

The numbers `0, …, n - 1` are split into sets, each of them a tree of parent links whose root
stands for the set.  `find` redirects the links that it followed to the root; `union` hangs the
root of lower rank under the other one, and of two roots with one rank it keeps the first.
-/

namespace Cyclewise

/-- A forest of parent links, with a rank for every element. -/
structure DisjointSets where
  parent : Array Nat
  rank : Array Nat

namespace DisjointSets

/-- `n` sets of one element.  Elements are numbers of 32 bits, and so is their count: there are fewer
than `2 ^ 32` of them. -/
def singletons (n : Nat) : DisjointSets := ⟨Array.range n, Array.replicate n 0⟩

/-- The number of elements. -/
def size (d : DisjointSets) : Nat := d.parent.size

/-- Whether there is no element. -/
def isEmpty (d : DisjointSets) : Bool := d.parent.isEmpty

/-- The parent of an element; a root is its own parent. -/
def parentOf (parent : Array Nat) (x : Nat) : Nat := parent.getD x x

/-- Follow at most `fuel` links towards the root. -/
def climb (parent : Array Nat) : Nat → Nat → Nat
  | 0, x => x
  | fuel + 1, x =>
    let p := parentOf parent x
    if p = x then x else climb parent fuel p

/-- The root above an element.  A way up has fewer links than there are elements. -/
def root (d : DisjointSets) (x : Nat) : Nat := climb d.parent d.size x

/-- Redirect the links on the way from `x` to `root`, at most `fuel` of them. -/
def redirect (root : Nat) : Nat → Array Nat → Nat → Array Nat
  | 0, parent, _ => parent
  | fuel + 1, parent, x =>
    let p := parentOf parent x
    if p = root then parent else redirect root fuel (parent.setIfInBounds x root) p

/-- The root above an element, and the forest with a shorter way to it. -/
def find (d : DisjointSets) (x : Nat) : Nat × DisjointSets :=
  let r := d.root x
  (r, { d with parent := redirect r d.size d.parent x })

/-- Merge two sets by rank, given their different roots. -/
def link (d : DisjointSets) (a b : Nat) : DisjointSets :=
  let rankA := d.rank.getD a 0
  let rankB := d.rank.getD b 0
  if rankA < rankB then { d with parent := d.parent.setIfInBounds a b }
  else if rankB < rankA then { d with parent := d.parent.setIfInBounds b a }
  else
    { parent := d.parent.setIfInBounds b a
      rank := d.rank.setIfInBounds a (rankA + 1) }

/-- Merge the sets of two elements; the flag tells whether they were different. -/
def union (d : DisjointSets) (a b : Nat) : Bool × DisjointSets :=
  let (rootA, d) := d.find a
  let (rootB, d) := d.find b
  if rootA = rootB then (false, d) else (true, d.link rootA rootB)

/-- Whether two elements are in one set. -/
def same (d : DisjointSets) (a b : Nat) : Bool × DisjointSets :=
  let (rootA, d) := d.find a
  let (rootB, d) := d.find b
  (rootA == rootB, d)

/-! ## Checked operations -/

/-- `find` of an element; nothing for other numbers. -/
def find? (d : DisjointSets) (x : Nat) : Option (Nat × DisjointSets) :=
  if x < d.size then some (d.find x) else none

/-- `union` of two elements; nothing for other numbers. -/
def union? (d : DisjointSets) (a b : Nat) : Option (Bool × DisjointSets) :=
  if a < d.size ∧ b < d.size then some (d.union a b) else none

/-- `same` of two elements; nothing for other numbers. -/
def same? (d : DisjointSets) (a b : Nat) : Option (Bool × DisjointSets) :=
  if a < d.size ∧ b < d.size then some (d.same a b) else none

/-! ## Sequences of operations -/

/-- A call of an operation. -/
inductive Call where
  | find (x : Nat)
  | union (a b : Nat)
  | same (a b : Nat)

/-- Whether a call is one for `n` elements. -/
def Call.Within (n : Nat) : Call → Prop
  | find x => x < n
  | union a b => a < n ∧ b < n
  | same a b => a < n ∧ b < n

/-- The forest that a call leaves; nothing for numbers that are no elements. -/
def perform? (d : DisjointSets) : Call → Option DisjointSets
  | .find x => (d.find? x).map Prod.snd
  | .union a b => (d.union? a b).map Prod.snd
  | .same a b => (d.same? a b).map Prod.snd

/-- The forest that calls leave, one after the other. -/
def performAll? (d : DisjointSets) (calls : List Call) : Option DisjointSets :=
  calls.foldlM perform? d

end DisjointSets

end Cyclewise
