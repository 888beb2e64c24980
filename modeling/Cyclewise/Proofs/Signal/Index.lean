import Cyclewise.Proofs.OrderedMap
import Cyclewise.Proofs.Signal.Forest

/-!
# The index of paths

The index of a table that arose from declarations lists every signal under its path, in order
(`Built.entries_byPath`).  So no two signals have one path, and a look-up finds the signal that has
the path (`Built.lookup?_eq_some_iff`).
-/

namespace Cyclewise

namespace SignalTable

variable {t t' : SignalTable}

theorem mem_toList {a : SignalId} {d : SignalDef} : (a, d) ∈ t.toList ↔ t.get? a = some d := by
  unfold toList get?
  rw [List.mem_map, ← Array.getElem?_toList]
  constructor
  · rintro ⟨⟨d', i⟩, hmem, heq⟩
    obtain ⟨rfl, rfl⟩ := Prod.mk.inj heq
    exact List.mem_zipIdx_iff_getElem?.1 hmem
  · intro h
    exact ⟨(d, a.index), List.mem_zipIdx_iff_getElem?.2 h, rfl⟩

theorem toList_insert {d : SignalDef} {s : SignalId} (h : t.insert d = .ok (s, t')) :
    t'.toList = t.toList ++ [(s, d)] := by
  obtain ⟨rfl, hdefs, -⟩ := insert_eq_ok h
  unfold toList
  rw [hdefs, Array.toList_push, List.zipIdx_append, List.map_append]
  simp [size]

/-- The index lists the paths of all signals, in the order of their numbers. -/
theorem Built.entries_byPath (ht : t.Built) :
    t.byPath.entries = t.toList.map fun (a, d) => (d.path, a) := by
  have hinsert : ∀ {t t' : SignalTable} {d s}, t.insert d = .ok (s, t') →
      t.byPath.entries = (t.toList.map fun (a, d) => (d.path, a)) →
      t'.byPath.entries = t'.toList.map fun (a, d) => (d.path, a) := by
    intro t t' d s h ih
    obtain ⟨hpath, hindex⟩ := byPath_insert h
    rw [hindex, OrderedMap.entries_insert_of_not_mem hpath, toList_insert h, List.map_append, ih]
    rfl
  induction ht with
  | empty => rfl
  | declare _ h ih => exact hinsert h ih
  | declareChild _ h ih =>
    obtain ⟨d, h, -⟩ := exists_insert_of_declareChild h
    exact hinsert h ih

/-- A look-up finds the signal that is declared with the path. -/
theorem Built.lookup?_eq_some_iff (ht : t.Built) {path : String} {a : SignalId} :
    t.lookup? path = some a ↔ ∃ d, t.get? a = some d ∧ d.path = path := by
  unfold lookup?
  rw [← OrderedMap.mem_entries_iff, ht.entries_byPath, List.mem_map]
  constructor
  · rintro ⟨⟨b, d⟩, hmem, heq⟩
    obtain ⟨rfl, rfl⟩ := Prod.mk.inj heq
    exact ⟨d, mem_toList.1 hmem, rfl⟩
  · rintro ⟨d, hd, rfl⟩
    exact ⟨(a, d), mem_toList.2 hd, rfl⟩

/-- Later declarations do not change what a path means, but they may give it a meaning. -/
theorem Built.lookup?_extends (ht : t.Built) (ht' : t'.Built) (h : t'.Extends t) (path : String) :
    t'.lookup? path = t.lookup? path ∨
      t.lookup? path = none ∧ ∃ a, t'.lookup? path = some a ∧ t.get? a = none := by
  cases hfirst : t.lookup? path with
  | some a =>
    obtain ⟨d, hd, hpath⟩ := ht.lookup?_eq_some_iff.1 hfirst
    exact .inl (ht'.lookup?_eq_some_iff.2 ⟨d, h a d hd, hpath⟩)
  | none =>
    cases hlater : t'.lookup? path with
    | none => exact .inl rfl
    | some a =>
      refine .inr ⟨rfl, a, rfl, ?_⟩
      obtain ⟨d', hd', hpath⟩ := ht'.lookup?_eq_some_iff.1 hlater
      cases hd : t.get? a with
      | none => rfl
      | some d =>
        -- a declaration with the path would have been found before
        obtain rfl := Option.some.inj ((h a d hd).symm.trans hd')
        rw [ht.lookup?_eq_some_iff.2 ⟨d, hd, hpath⟩] at hfirst
        cases hfirst

end SignalTable

end Cyclewise
