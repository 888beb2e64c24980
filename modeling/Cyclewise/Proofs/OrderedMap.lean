import Cyclewise.OrderedMap

/-!
# Look-ups in maps in insertion order

An entry of a map is what a look-up of its key finds (`mem_entries_iff`), and an insertion changes
the look-up of its own key only (`find?_insert`), as does an erasure (`find?_erase`).  A list
without repeated keys becomes the map with just these entries (`entries_ofList`).
-/

namespace Cyclewise

attribute [ext] OrderedMap

namespace OrderedMap

universe u v

variable {κ : Type u} {α : Type v} [DecidableEq κ]

theorem lookup_eq_some_iff_mem {es : List (κ × α)} (hes : (es.map Prod.fst).Nodup) {k : κ} {a : α} :
    es.lookup k = some a ↔ (k, a) ∈ es := by
  induction es with
  | nil => simp
  | cons e es ih =>
    obtain ⟨k', a'⟩ := e
    rw [List.map_cons, List.nodup_cons] at hes
    rw [List.lookup_cons, List.mem_cons]
    by_cases h : k = k'
    · subst h
      have hnot : (k, a) ∉ es := fun hmem => hes.1 (List.mem_map.2 ⟨(k, a), hmem, rfl⟩)
      simp [hnot, eq_comm]
    · rw [beq_false_of_ne h]
      simp [h, ih hes.2]

theorem mem_entries_iff {m : OrderedMap κ α} {k : κ} {a : α} :
    (k, a) ∈ m.entries ↔ m.find? k = some a :=
  (lookup_eq_some_iff_mem m.nodup_keys).symm

theorem mem_keys_iff {m : OrderedMap κ α} {k : κ} : k ∈ m.keys ↔ ∃ a, m.find? k = some a := by
  rw [mem_keys_iff_isSome_find?, Option.isSome_iff_exists]

theorem entries_insert_of_not_mem {m : OrderedMap κ α} {k : κ} (hk : k ∉ m.keys) (a : α) :
    (m.insert k a).entries = m.entries ++ [(k, a)] := by
  unfold insert
  rw [dif_neg hk]

theorem find?_insert (m : OrderedMap κ α) (k : κ) (a : α) (k' : κ) :
    (m.insert k a).find? k' = if k' = k then some a else m.find? k' := by
  apply Option.ext
  intro b
  rw [← mem_entries_iff]
  unfold insert
  split
  · next hk =>
    -- the key is present: the entries are those of `m`, with `a` under `k`
    obtain ⟨old, hold⟩ := mem_keys_iff.1 hk
    simp only [List.mem_map, Prod.mk.injEq]
    constructor
    · rintro ⟨⟨k₀, b₀⟩, hmem, rfl, rfl⟩
      split
      · rfl
      · exact mem_entries_iff.1 hmem
    · intro h
      split at h
      · next hkk =>
        subst hkk
        exact ⟨(k', old), mem_entries_iff.2 hold, rfl, by simpa using h⟩
      · next hkk => exact ⟨(k', b), mem_entries_iff.2 h, rfl, by simp [hkk]⟩
  · next hk =>
    simp only [List.mem_append, List.mem_singleton, Prod.mk.injEq, mem_entries_iff]
    split
    · next hkk =>
      subst hkk
      have hnone : m.find? k' = none := by
        cases h : m.find? k' with
        | none => rfl
        | some b => exact absurd (mem_keys_iff.2 ⟨b, h⟩) hk
      simp [hnone, eq_comm]
    · next hkk => simp [hkk]

theorem findD_insert (m : OrderedMap κ α) (k : κ) (a : α) (k' : κ) (d : α) :
    (m.insert k a).findD k' d = if k' = k then a else m.findD k' d := by
  unfold findD
  rw [find?_insert]
  split <;> rfl

theorem findD_modify (m : OrderedMap κ α) (k : κ) (d : α) (f : α → α) (k' : κ) :
    (m.modify k d f).findD k' d = if k' = k then f (m.findD k d) else m.findD k' d :=
  findD_insert m k _ k' d

/-- A map that holds what belongs to some keys, with one more key. -/
theorem findD_insert_of_concat {β : Type v} {m : OrderedMap κ α} {d : α} {f : β → α}
    {es : List (κ × β)} {e : κ × β} (hm : ∀ k b, (k, b) ∈ es → m.findD k d = f b)
    (he : e.1 ∉ es.map Prod.fst) {k : κ} {b : β} (hk : (k, b) ∈ es ++ [e]) :
    (m.insert e.1 (f e.2)).findD k d = f b := by
  rw [findD_insert]
  rcases List.mem_append.1 hk with hk | hk
  · have hne : k ≠ e.1 := by
      rintro rfl
      exact he (List.mem_map.2 ⟨_, hk, rfl⟩)
    rw [if_neg hne]
    exact hm k b hk
  · obtain rfl := List.mem_singleton.1 hk
    rw [if_pos rfl]

/-- In a map to lists, a missing list counts as empty. -/
theorem mem_findD_iff {β : Type v} {m : OrderedMap κ (List β)} {k : κ} {b : β} :
    b ∈ m.findD k [] ↔ ∃ bs, (k, bs) ∈ m.entries ∧ b ∈ bs := by
  unfold findD
  simp only [mem_entries_iff]
  cases m.find? k with
  | none => simp
  | some bs => simp

theorem find?_filter (p : κ → α → Bool) (m : OrderedMap κ α) (k : κ) :
    (m.filter p).find? k = (m.find? k).filter (p k) := by
  apply Option.ext
  intro a
  rw [← mem_entries_iff, Option.filter_eq_some_iff, ← mem_entries_iff]
  exact List.mem_filter

theorem find?_erase (m : OrderedMap κ α) (k k' : κ) :
    (m.erase k).find? k' = if k' = k then none else m.find? k' := by
  unfold erase
  rw [find?_filter]
  by_cases h : k' = k
  · simp [h]
  · cases m.find? k' <;> simp [h]

theorem erase_of_find?_eq_none {m : OrderedMap κ α} {k : κ} (hk : m.find? k = none) :
    m.erase k = m := by
  apply OrderedMap.ext
  show m.entries.filter _ = m.entries
  refine List.filter_eq_self.2 fun e he => ?_
  have hne : e.1 ≠ k := by
    rintro rfl
    rw [mem_entries_iff.1 (show (e.1, e.2) ∈ m.entries from he)] at hk
    cases hk
  simp [hne]

/-- A new entry is erased without a trace. -/
theorem erase_insert {m : OrderedMap κ α} {k : κ} (hk : m.find? k = none) (a : α) :
    (m.insert k a).erase k = m := by
  have hnot : k ∉ m.keys := by
    rw [mem_keys_iff_isSome_find?, hk]
    exact Bool.false_ne_true
  have herase : m.entries.filter (fun e => e.1 ≠ k) = m.entries :=
    congrArg entries (erase_of_find?_eq_none hk)
  apply OrderedMap.ext
  show (m.insert k a).entries.filter (fun e => e.1 ≠ k) = m.entries
  rw [entries_insert_of_not_mem hnot, List.filter_append, herase]
  simp

theorem entries_foldl_insert (es : List (κ × α)) (m : OrderedMap κ α)
    (h : (m.keys ++ es.map Prod.fst).Nodup) :
    (es.foldl (fun m e => m.insert e.1 e.2) m).entries = m.entries ++ es := by
  induction es generalizing m with
  | nil => simp
  | cons e es ih =>
    obtain ⟨k, a⟩ := e
    rw [List.map_cons, List.nodup_append] at h
    obtain ⟨hm, hes, hdisj⟩ := h
    have hk : k ∉ m.keys := fun hk => hdisj k hk k List.mem_cons_self rfl
    have hentries := entries_insert_of_not_mem hk a
    have hkeys : (m.insert k a).keys = m.keys ++ [k] := by simp [keys, hentries]
    rw [List.foldl_cons, ih, hentries, List.append_assoc, List.singleton_append]
    rw [hkeys, List.append_assoc, List.singleton_append, List.nodup_append]
    exact ⟨hm, hes, hdisj⟩

/-- New keys with one value are listed at the end. -/
theorem entries_foldl_insert_const (m : OrderedMap κ α) (a : α) {ks : List κ}
    (h : (m.keys ++ ks).Nodup) :
    (ks.foldl (fun m k => m.insert k a) m).entries = m.entries ++ ks.map fun k => (k, a) := by
  have hks : (ks.map fun k => (k, a)).map Prod.fst = ks := by
    rw [List.map_map]
    exact List.map_id _
  have hfold := entries_foldl_insert (ks.map fun k => (k, a)) m (hks.symm ▸ h)
  rwa [List.foldl_map] at hfold

theorem entries_ofList {es : List (κ × α)} (h : (es.map Prod.fst).Nodup) :
    (ofList es).entries = es := by
  unfold ofList
  rw [entries_foldl_insert es ∅ h]
  rfl

end OrderedMap

end Cyclewise
