import Mathlib.Data.List.Nodup
import Mathlib.Data.List.Perm.Basic
import Cyclewise.Schedule.Basic

/-!
# Batches by level

`batchesOf nodes levels` puts each node into the batch of its level.  One after the other the
batches hold the nodes once each (`perm_batchesOf`), and a node of lower level is in an earlier
batch (`lower_of_level_lt`), also after reorderings inside the batches
(`LowerBatch.of_forall₂_perm`).
-/

namespace Cyclewise

/-- Both blocks have a place in the order, and the first one comes first. -/
def Earlier (order : List BlockId) (a b : BlockId) : Prop :=
  ∃ i j, order.idxOf? a = some i ∧ order.idxOf? b = some j ∧ i < j

theorem Earlier.trans {order : List BlockId} {a b c : BlockId} (h : Earlier order a b)
    (h' : Earlier order b c) : Earlier order a c := by
  obtain ⟨i, j, hi, hj, hij⟩ := h
  obtain ⟨j', k, hj', hk, hjk⟩ := h'
  have : j = j' := Option.some.inj (hj.symm.trans hj')
  exact ⟨i, k, hi, hk, by omega⟩

theorem Earlier.ne {order : List BlockId} {a b : BlockId} (h : Earlier order a b) : a ≠ b := by
  rintro rfl
  obtain ⟨i, j, hi, hj, hij⟩ := h
  have : i = j := Option.some.inj (hi.symm.trans hj)
  omega

theorem idxOf?_eq_some_iff_getElem? {l : List BlockId} (hl : l.Nodup) {b : BlockId} {i : Nat} :
    l.idxOf? b = some i ↔ l[i]? = some b := by
  rw [List.idxOf?_eq_some_iff, List.getElem?_eq_some_iff]
  constructor
  · rintro ⟨hi, hb, -⟩
    exact ⟨hi, by simpa using hb⟩
  · rintro ⟨hi, rfl⟩
    refine ⟨hi, by simp, fun j hj heq => ?_⟩
    have := (List.getElem_inj hl).1 heq
    omega

theorem Earlier.asymm {order : List BlockId} {a b : BlockId} (h : Earlier order a b) :
    ¬ Earlier order b a :=
  fun h' => (h.trans h').ne rfl

/-- In two lists, one after the other, the blocks of the first one come first. -/
theorem earlier_append {xs ys : List BlockId} (hnodup : (xs ++ ys).Nodup) {a b : BlockId}
    (ha : a ∈ xs) (hb : b ∈ ys) : Earlier (xs ++ ys) a b := by
  obtain ⟨i, hi⟩ := List.mem_iff_getElem?.1 ha
  obtain ⟨j, hj⟩ := List.mem_iff_getElem?.1 hb
  obtain ⟨hlt, -⟩ := List.getElem?_eq_some_iff.1 hi
  refine ⟨i, xs.length + j, ?_, ?_, by omega⟩
  · rw [idxOf?_eq_some_iff_getElem? hnodup, List.getElem?_append_left hlt]
    exact hi
  · rw [idxOf?_eq_some_iff_getElem? hnodup, List.getElem?_append_right (by omega)]
    simpa using hj

/-- The first block is in an earlier batch than the second one. -/
def LowerBatch (batches : List (List BlockId)) (a b : BlockId) : Prop :=
  ∃ (i j : Nat) (xs ys : List BlockId),
    batches[i]? = some xs ∧ batches[j]? = some ys ∧ a ∈ xs ∧ b ∈ ys ∧ i < j

theorem LowerBatch.earlier {batches : List (List BlockId)} (hnodup : batches.flatten.Nodup)
    {a b : BlockId} (h : LowerBatch batches a b) : Earlier batches.flatten a b := by
  obtain ⟨i, j, xs, ys, hxs, hys, ha, hb, hij⟩ := h
  have hsplit : batches.flatten = (batches.take j).flatten ++ (batches.drop j).flatten := by
    rw [← List.flatten_append, List.take_append_drop]
  rw [hsplit] at hnodup ⊢
  refine earlier_append hnodup (List.mem_flatten.2 ⟨xs, ?_, ha⟩) (List.mem_flatten.2 ⟨ys, ?_, hb⟩)
  · refine List.mem_of_getElem? (i := i) ?_
    rw [List.getElem?_take_of_lt hij]
    exact hxs
  · refine List.mem_of_getElem? (i := 0) ?_
    rw [List.getElem?_drop]
    exact hys

/-- Reordering the batches, each for itself, keeps them in place. -/
theorem LowerBatch.of_forall₂_perm {batches batches' : List (List BlockId)}
    (hperm : List.Forall₂ List.Perm batches' batches) {a b : BlockId}
    (h : LowerBatch batches a b) : LowerBatch batches' a b := by
  obtain ⟨i, j, xs, ys, hxs, hys, ha, hb, hij⟩ := h
  have hbatch : ∀ {k : Nat} {zs : List BlockId} {c : BlockId}, batches[k]? = some zs → c ∈ zs →
      ∃ zs', batches'[k]? = some zs' ∧ c ∈ zs' := by
    intro k zs c hzs hc
    obtain ⟨hk, rfl⟩ := List.getElem?_eq_some_iff.1 hzs
    have hk' : k < batches'.length := hperm.length_eq.symm ▸ hk
    refine ⟨_, List.getElem?_eq_getElem hk', ?_⟩
    exact (List.Forall₂.get hperm hk' hk).mem_iff.2 hc
  obtain ⟨xs', hxs', ha'⟩ := hbatch hxs ha
  obtain ⟨ys', hys', hb'⟩ := hbatch hys hb
  exact ⟨i, j, xs', ys', hxs', hys', ha', hb', hij⟩

namespace Schedule

/-! ## Sorting into levels -/

variable {α : Type}

/-- Entries level by level. -/
def byLevel (zs : List (α × Nat)) (depth : Nat) : List (α × Nat) :=
  (List.range depth).flatMap fun level => zs.filter fun z => z.2 = level

theorem byLevel_succ (zs : List (α × Nat)) (depth : Nat) :
    byLevel zs (depth + 1) = byLevel zs depth ++ zs.filter fun z => z.2 = depth := by
  unfold byLevel
  rw [List.range_succ, List.flatMap_append, List.flatMap_singleton]

theorem perm_byLevel_filter (zs : List (α × Nat)) (depth : Nat) :
    (byLevel zs depth).Perm (zs.filter fun z => z.2 < depth) := by
  induction depth with
  | zero => simp [byLevel]
  | succ depth ih =>
    rw [byLevel_succ]
    have hsplit := List.filter_append_perm (fun z : α × Nat => decide (z.2 < depth))
      (zs.filter fun z => z.2 < depth + 1)
    rw [List.filter_filter, List.filter_filter] at hsplit
    have hlow : (zs.filter fun z => decide (z.2 < depth) && decide (z.2 < depth + 1)) =
        zs.filter fun z => z.2 < depth := by
      refine List.filter_congr fun z _ => ?_
      rw [← Bool.decide_and, decide_eq_decide]
      omega
    have hhigh : (zs.filter fun z => !decide (z.2 < depth) && decide (z.2 < depth + 1)) =
        zs.filter fun z => z.2 = depth := by
      refine List.filter_congr fun z _ => ?_
      rw [← decide_not, ← Bool.decide_and, decide_eq_decide]
      omega
    rw [hlow, hhigh] at hsplit
    exact (ih.append_right _).trans hsplit

/-! ## The order of the batches -/

/-- The depth that `batchesOf` works with. -/
def depth (levels : Array Nat) : Nat :=
  levels.foldl (fun depth level => max depth (level + 1)) 0

theorem lt_depth {levels : Array Nat} {level : Nat} (h : level ∈ levels) :
    level < depth levels := by
  have hfold : ∀ (ls : List Nat) (d : Nat),
      d ≤ ls.foldl (fun depth level => max depth (level + 1)) d ∧
        ∀ l ∈ ls, l < ls.foldl (fun depth level => max depth (level + 1)) d := by
    intro ls
    induction ls with
    | nil => exact fun d => ⟨Nat.le_refl _, fun l hl => by cases hl⟩
    | cons k ls ih =>
      intro d
      obtain ⟨hle, hlt⟩ := ih (max d (k + 1))
      rw [List.foldl_cons]
      refine ⟨by omega, fun l hl => ?_⟩
      rcases List.mem_cons.1 hl with rfl | hl
      · omega
      · exact hlt l hl
  unfold depth
  rw [← Array.foldl_toList]
  exact (hfold levels.toList 0).2 level (Array.mem_toList_iff.2 h)

theorem exists_le_of_lt_depth {levels : Array Nat} {k : Nat} (h : k < depth levels) :
    ∃ level ∈ levels, k ≤ level := by
  have hfold : ∀ (ls : List Nat) (d : Nat),
      k < ls.foldl (fun depth level => max depth (level + 1)) d → k < d ∨ ∃ l ∈ ls, k ≤ l := by
    intro ls
    induction ls with
    | nil => exact fun d hd => .inl hd
    | cons l ls ih =>
      intro d hd
      rcases ih _ hd with hlt | ⟨l', hl', hle⟩
      · have hmax : k < max d (l + 1) := hlt
        by_cases hd : k < d
        · exact .inl hd
        · exact .inr ⟨l, List.mem_cons_self, by omega⟩
      · exact .inr ⟨l', List.mem_cons_of_mem l hl', hle⟩
  unfold depth at h
  rw [← Array.foldl_toList] at h
  rcases hfold levels.toList 0 h with hlt | ⟨l, hl, hle⟩
  · exact absurd hlt (Nat.not_lt_zero k)
  · exact ⟨l, Array.mem_toList_iff.1 hl, hle⟩

variable {nodes : List BlockId} {levels : Array Nat}

theorem flatten_batchesOf (nodes : List BlockId) (levels : Array Nat) :
    (batchesOf nodes levels).flatten =
      (byLevel (nodes.zip levels.toList) (depth levels)).map Prod.fst := by
  unfold batchesOf byLevel depth
  rw [List.map_flatMap, List.flatMap_def]

theorem perm_byLevel (nodes : List BlockId) (levels : Array Nat) :
    (byLevel (nodes.zip levels.toList) (depth levels)).Perm (nodes.zip levels.toList) := by
  have hall : ((nodes.zip levels.toList).filter fun z => z.2 < depth levels) =
      nodes.zip levels.toList := by
    refine List.filter_eq_self.2 fun z hz => ?_
    have hmem : z.2 ∈ levels.toList := (List.of_mem_zip hz).2
    exact decide_eq_true (lt_depth (Array.mem_toList_iff.1 hmem))
  have h := perm_byLevel_filter (nodes.zip levels.toList) (depth levels)
  rwa [hall] at h

/-- The batches hold every node once. -/
theorem perm_batchesOf (h : levels.size = nodes.length) :
    (batchesOf nodes levels).flatten.Perm nodes := by
  have hfst : (nodes.zip levels.toList).map Prod.fst = nodes :=
    List.map_fst_zip (by simpa using Nat.le_of_eq h.symm)
  rw [flatten_batchesOf]
  have hperm := (perm_byLevel nodes levels).map Prod.fst
  rwa [hfst] at hperm

/-- There is a batch for every level below the depth, with the nodes of this level. -/
theorem getElem?_batchesOf {batch : List BlockId} {k : Nat} :
    (batchesOf nodes levels)[k]? = some batch ↔ k < depth levels ∧
      ((nodes.zip levels.toList).filter fun z => z.2 = k).map Prod.fst = batch := by
  show ((List.range (depth levels)).map _)[k]? = some batch ↔ _
  rw [List.getElem?_map, Option.map_eq_some_iff]
  constructor
  · rintro ⟨level, hlevel, rfl⟩
    obtain ⟨hlt, rfl⟩ := List.getElem?_eq_some_iff.1 hlevel
    rw [List.getElem_range]
    exact ⟨by simpa using hlt, rfl⟩
  · rintro ⟨hlt, rfl⟩
    exact ⟨k, List.getElem?_range hlt, rfl⟩

theorem mem_batchesOf {batch : List BlockId} {k : Nat}
    (hbatch : (batchesOf nodes levels)[k]? = some batch) {b : BlockId} :
    b ∈ batch ↔ ∃ u : Nat, nodes[u]? = some b ∧ levels[u]? = some k := by
  obtain ⟨-, rfl⟩ := getElem?_batchesOf.1 hbatch
  simp only [List.mem_map, List.mem_filter, decide_eq_true_eq]
  constructor
  · rintro ⟨⟨b, level⟩, ⟨hmem, rfl⟩, rfl⟩
    obtain ⟨u, hu⟩ := List.mem_iff_getElem?.1 hmem
    obtain ⟨hb, hlevel⟩ := List.getElem?_zip_eq_some.1 hu
    exact ⟨u, hb, by rwa [Array.getElem?_toList] at hlevel⟩
  · rintro ⟨u, hb, hlevel⟩
    refine ⟨(b, k), ⟨List.mem_of_getElem? (i := u) ?_, rfl⟩, rfl⟩
    rw [List.getElem?_zip_eq_some]
    exact ⟨hb, by rw [Array.getElem?_toList, hlevel]⟩

/-- A batch keeps the order of the nodes. -/
theorem pairwise_batchesOf (h : levels.size = nodes.length) {R : BlockId → BlockId → Prop}
    (hnodes : nodes.Pairwise R) {batch : List BlockId} (hbatch : batch ∈ batchesOf nodes levels) :
    batch.Pairwise R := by
  obtain ⟨k, hk⟩ := List.mem_iff_getElem?.1 hbatch
  obtain ⟨-, rfl⟩ := getElem?_batchesOf.1 hk
  have hfst : (nodes.zip levels.toList).map Prod.fst = nodes :=
    List.map_fst_zip (by simpa using Nat.le_of_eq h.symm)
  refine hnodes.sublist ?_
  have hsub := (List.filter_sublist (p := fun z => decide (z.2 = k))
    (l := nodes.zip levels.toList)).map Prod.fst
  rwa [hfst] at hsub

/-- A node is in the batch of its level. -/
theorem mem_batch_of_level (h : levels.size = nodes.length) {a : BlockId} {u : Nat}
    (ha : nodes[u]? = some a) :
    ∃ batch, (batchesOf nodes levels)[levels.getD u 0]? = some batch ∧ a ∈ batch := by
  obtain ⟨hu, -⟩ := List.getElem?_eq_some_iff.1 ha
  have hlevel : levels[u]? = some (levels.getD u 0) := by
    rw [Array.getD_eq_getD_getElem?, Array.getElem?_eq_getElem (h ▸ hu), Option.getD_some]
  obtain ⟨batch, hbatch⟩ :
      ∃ batch, (batchesOf nodes levels)[levels.getD u 0]? = some batch :=
    ⟨_, getElem?_batchesOf.2 ⟨lt_depth (Array.mem_of_getElem? hlevel), rfl⟩⟩
  exact ⟨batch, hbatch, (mem_batchesOf hbatch).2 ⟨u, ha, hlevel⟩⟩

theorem lower_of_level_lt (h : levels.size = nodes.length) {a b : BlockId} {u v : Nat}
    (ha : nodes[u]? = some a) (hb : nodes[v]? = some b) (hlt : levels.getD u 0 < levels.getD v 0) :
    LowerBatch (batchesOf nodes levels) a b := by
  obtain ⟨xs, hxs, hmem⟩ := mem_batch_of_level h ha
  obtain ⟨ys, hys, hmem'⟩ := mem_batch_of_level h hb
  exact ⟨_, _, xs, ys, hxs, hys, hmem, hmem', hlt⟩

end Schedule

end Cyclewise
