/-!
# Maps in insertion order

An `OrderedMap` holds each key once and lists its entries in the order in which their keys were
first inserted.  Inserting under a present key changes the value and keeps the place; erasing a
key keeps the order of the rest.
-/

namespace Cyclewise

universe u v

/-- Entries in insertion order, one for each key. -/
structure OrderedMap (κ : Type u) (α : Type v) where
  entries : List (κ × α)
  nodup_keys : (entries.map Prod.fst).Nodup

namespace OrderedMap

variable {κ : Type u} {α : Type v}

/-- The map without entries. -/
def empty : OrderedMap κ α := ⟨[], List.Pairwise.nil⟩

instance : EmptyCollection (OrderedMap κ α) := ⟨empty⟩

instance : Inhabited (OrderedMap κ α) := ⟨∅⟩

/-- Keys in insertion order. -/
def keys (m : OrderedMap κ α) : List κ := m.entries.map Prod.fst

/-- Values in the order of their keys. -/
def values (m : OrderedMap κ α) : List α := m.entries.map Prod.snd

/-- The number of entries. -/
def size (m : OrderedMap κ α) : Nat := m.entries.length

/-- Whether the map has no entry. -/
def isEmpty (m : OrderedMap κ α) : Bool := m.entries.isEmpty

/-- Keep the entries that satisfy `p`. -/
def filter (p : κ → α → Bool) (m : OrderedMap κ α) : OrderedMap κ α where
  entries := m.entries.filter fun e => p e.1 e.2
  nodup_keys := m.nodup_keys.sublist (List.filter_sublist.map _)

variable [DecidableEq κ]

/-- The value under `k`. -/
def find? (m : OrderedMap κ α) (k : κ) : Option α := m.entries.lookup k

/-- The value under `k`, or `d` when there is none. -/
def findD (m : OrderedMap κ α) (k : κ) (d : α) : α := (m.find? k).getD d

/-- Whether `k` has an entry. -/
def contains (m : OrderedMap κ α) (k : κ) : Bool := decide (k ∈ m.keys)

/-- Put `a` under `k`: in place if `k` is present, at the end otherwise. -/
def insert (m : OrderedMap κ α) (k : κ) (a : α) : OrderedMap κ α :=
  if h : k ∈ m.keys then
    { entries := m.entries.map fun e => (e.1, if e.1 = k then a else e.2)
      nodup_keys := by
        have :
            (m.entries.map fun e => (e.1, if e.1 = k then a else e.2)).map Prod.fst = m.keys := by
          simp [keys, Function.comp_def]
        rw [this]
        exact m.nodup_keys }
  else
    { entries := m.entries ++ [(k, a)]
      nodup_keys := by
        rw [List.map_append, List.nodup_append]
        refine ⟨m.nodup_keys, by simp, fun x hx y hy hxy => h ?_⟩
        simp only [List.map_cons, List.map_nil, List.mem_singleton] at hy
        rw [← hy, ← hxy]
        exact hx }

/-- Replace the value under `k` by `f` of it; `d` stands in for a missing one. -/
def modify (m : OrderedMap κ α) (k : κ) (d : α) (f : α → α) : OrderedMap κ α :=
  m.insert k (f (m.findD k d))

/-- Drop the entry under `k`. -/
def erase (m : OrderedMap κ α) (k : κ) : OrderedMap κ α :=
  m.filter fun k' _ => k' ≠ k

/-- The map that holds the pairs of a list, the last value of a repeated key counting. -/
def ofList (es : List (κ × α)) : OrderedMap κ α :=
  es.foldl (fun m e => m.insert e.1 e.2) ∅

/-! ## Lemmas -/

theorem keys_insert (m : OrderedMap κ α) (k : κ) (a : α) :
    (m.insert k a).keys = if k ∈ m.keys then m.keys else m.keys ++ [k] := by
  unfold insert
  split
  · simp [keys, Function.comp_def]
  · simp [keys]

theorem mem_keys_iff_isSome_find? (m : OrderedMap κ α) (k : κ) :
    k ∈ m.keys ↔ (m.find? k).isSome := by
  unfold keys find?
  induction m.entries with
  | nil => simp
  | cons e es ih =>
    rw [List.map_cons, List.mem_cons, List.lookup_cons]
    by_cases h : k = e.1
    · simp [h]
    · simp only [h, false_or, ih]
      have : (k == e.1) = false := beq_false_of_ne h
      rw [this]

end OrderedMap

end Cyclewise
