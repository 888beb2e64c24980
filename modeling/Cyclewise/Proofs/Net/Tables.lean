import Cyclewise.Proofs.Arrays
import Cyclewise.Proofs.Net.ConflictTable
import Cyclewise.Proofs.Net.Numbering

/-!
# The tables of a resolution

After each round of a loop the tables hold what `resolve` works out for the part of the design that
the loop has passed (`WriteTables.Holds`, `DriverTables.Holds`, `ReadTables.Holds`).  So after all
loops they give the same conflicts, the same undriven outputs and the same nets
(`resolveInPlace_eq`).
-/

namespace Cyclewise

/-! ## Writes -/

namespace WriteTables

/-- The tables after the blocks of `w`. -/
structure Holds (w : Wiring) (t : WriteTables) : Prop where
  size : t.claims.size = w.partition.size
  claims : ∀ n : NetId, n.index < w.partition.size → t.claims.getD n.index [] = w.claims n
  signalWriters : ∀ s, t.signalWriters.findD s [] = w.writersOf s
  blockWrites : ∀ b access, (b, access) ∈ w.blocks →
    t.blockWrites.findD b [] = w.writeNets access

section

variable (p : Partition) (b : BlockId) (t : WriteTables)

theorem size_foldl_enterWrite (ss : List SignalId) :
    (ss.foldl (enterWrite p b) t).claims.size = t.claims.size := by
  induction ss generalizing t with
  | nil => rfl
  | cons s ss ih =>
    rw [List.foldl_cons, ih]
    unfold enterWrite
    cases p.net? s with
    | none => rfl
    | some n => exact Array.size_modify

theorem claims_foldl_enterWrite (ss : List SignalId) {n : NetId} (hn : n.index < t.claims.size) :
    (ss.foldl (enterWrite p b) t).claims.getD n.index [] =
      t.claims.getD n.index [] ++ (ss.filter fun s => p.net? s = some n).map fun s => (b, s) := by
  induction ss generalizing t with
  | nil => exact (List.append_nil _).symm
  | cons s ss ih =>
    have hsize : (enterWrite p b t s).claims.size = t.claims.size :=
      size_foldl_enterWrite p b t [s]
    rw [List.foldl_cons, ih _ (hsize ▸ hn), List.filter_cons]
    unfold enterWrite
    cases hnet : p.net? s with
    | none => simp
    | some n' =>
      have hsame : n'.index = n.index ↔ n' = n :=
        ⟨NetId.eq_of_index n' n, congrArg NetId.index⟩
      simp only [getD_modify _ _ fun _ => hn, hsame, Option.some.injEq]
      by_cases h : n' = n <;> simp [h]

theorem signalWriters_foldl_enterWrite {ss : List SignalId} (hss : ss.Nodup) (s : SignalId) :
    (ss.foldl (enterWrite p b) t).signalWriters.findD s [] =
      t.signalWriters.findD s [] ++ if s ∈ ss then [b] else [] := by
  induction ss generalizing t with
  | nil => exact (List.append_nil _).symm
  | cons s' ss ih =>
    obtain ⟨hnot, hss⟩ := List.nodup_cons.1 hss
    have hstep : (enterWrite p b t s').signalWriters.findD s [] =
        if s = s' then t.signalWriters.findD s' [] ++ [b] else t.signalWriters.findD s [] :=
      OrderedMap.findD_modify ..
    rw [List.foldl_cons, ih _ hss, hstep]
    by_cases h : s = s'
    · subst h
      simp [hnot]
    · simp [h]

end

variable {signals : SignalTable} {p : Partition} {blocks : List (BlockId × BlockAccess)}
  {t : WriteTables}

/-- One more block is entered. -/
theorem Holds.enterBlock (ht : Holds ⟨signals, p, blocks⟩ t) {e : BlockId × BlockAccess}
    (he : e.1 ∉ blocks.map Prod.fst) :
    Holds ⟨signals, p, blocks ++ [e]⟩ (WriteTables.enterBlock p t e) where
  size := (size_foldl_enterWrite p e.1 t _).trans ht.size
  claims n hn := by
    refine (claims_foldl_enterWrite p e.1 t _ (ht.size ▸ hn)).trans ?_
    rw [ht.claims n hn]
    simp [Wiring.claims]
  signalWriters s := by
    have hnodup : e.2.writes.toList.Nodup := nodup_of_ascending e.2.writes.pairwise_toList
    refine (signalWriters_foldl_enterWrite p e.1 t hnodup s).trans ?_
    rw [ht.signalWriters s]
    simp only [SignalSet.mem_toList, ← SignalSet.contains_eq_true]
    unfold Wiring.writersOf
    rw [List.filter_append, List.map_append]
    by_cases hs : e.2.writes.contains s = true <;> simp [hs]
  blockWrites _ _ hb :=
    OrderedMap.findD_insert_of_concat (f := Wiring.writeNets ⟨signals, p, blocks ++ [e]⟩)
      ht.blockWrites he hb

/-- All blocks are entered. -/
theorem holds_ofWiring {w : Wiring} (hw : (w.blocks.map Prod.fst).Nodup) :
    (ofWiring w).Holds w := by
  obtain ⟨signals, p, blocks⟩ := w
  unfold ofWiring
  induction blocks using List.reverseRecOn with
  | nil =>
    refine ⟨Array.size_replicate, fun n hn => ?_, fun s => rfl, fun b access hb => ?_⟩
    · exact getD_replicate p.size n.index []
    · cases hb
  | append_singleton blocks e ih =>
    rw [List.map_append, List.nodup_append] at hw
    obtain ⟨hblocks, -, hdisjoint⟩ := hw
    rw [List.foldl_append]
    exact (ih hblocks).enterBlock fun he => hdisjoint e.1 he e.1 (by simp) rfl

end WriteTables

/-! ## Drivers -/

/-- Adding what is missing leaves out repetitions. -/
theorem addMissing_eraseDups {α : Type} [DecidableEq α] (known xs : List α) :
    addMissing known.eraseDups xs = (known ++ xs).eraseDups := by
  unfold addMissing
  induction xs generalizing known with
  | nil => rw [List.foldl_nil, List.append_nil]
  | cons x xs ih =>
    have hstep : (if x ∈ known.eraseDups then known.eraseDups else known.eraseDups ++ [x]) =
        (known ++ [x]).eraseDups := by
      rw [eraseDups_concat]
      simp only [List.mem_eraseDups]
    rw [List.foldl_cons, hstep, ih, List.append_assoc, List.singleton_append]

namespace DriverTables

/-- The tables after the first `k` nets. -/
structure Holds (w : Wiring) (k : Nat) (t : DriverTables) : Prop where
  drivers_size : t.drivers.size = w.partition.size
  writers_size : t.writers.size = w.partition.size
  drivers : ∀ n : NetId, n.index < w.partition.size → t.drivers.getD n.index none =
    if n.index < k ∧ w.contested n = false then w.driver? n else none
  writers : ∀ n : NetId, n.index < w.partition.size → t.writers.getD n.index [] =
    if n.index < k then ascendingBy BlockId.index (w.claimants n) else []
  conflicts : ∀ f, t.conflicts.Shows f ↔ ∃ n : NetId, n.index < k ∧ w.contested n = true ∧
    f.Among n (w.claimants n) (w.partition.membersOf n)

variable {w : Wiring} {claims : Array (List (BlockId × SignalId))} {t : DriverTables}

theorem look_eq {n : NetId} (hclaims : claims.getD n.index [] = w.claims n) :
    look w claims t n =
      let writers :=
        t.writers.setIfInBounds n.index (ascendingBy BlockId.index (w.claimants n))
      if w.contested n then
        { t with
          writers
          conflicts := t.conflicts.enter n (w.claimants n) (w.partition.membersOf n) }
      else { t with writers, drivers := t.drivers.setIfInBounds n.index (w.driver? n) } := by
  have hblocks : addMissing [] ((w.claims n).map Prod.fst) = w.claimants n :=
    addMissing_eraseDups [] _
  have hdriving : addMissing (addMissing [] ((w.claims n).map Prod.snd))
      ((w.constants n).map Prod.fst) = w.driving n := by
    rw [show addMissing [] ((w.claims n).map Prod.snd) = _ from addMissing_eraseDups [] _]
    exact addMissing_eraseDups _ _
  have hcontested : 1 < (w.claimants n).length ∨ 1 < (w.driving n).length ↔
      w.contested n = true := by
    unfold Wiring.contested
    rw [Bool.or_eq_true, decide_eq_true_iff, decide_eq_true_iff]
  unfold look
  simp only [hclaims, hblocks, hdriving, hcontested]
  rfl

theorem index_lt_succ {n : NetId} {k : Nat} : n.index < k + 1 ↔ n.index < k ∨ n = ⟨k⟩ := by
  rw [Nat.lt_succ_iff_lt_or_eq]
  exact or_congr Iff.rfl ⟨fun h => NetId.eq_of_index n ⟨k⟩ h, congrArg NetId.index⟩

/-- A table of nets with one more entry. -/
theorem getD_set_next {α : Type} {table : Array α} {n : NetId} {k : Nat} {a d : α}
    (hn : n.index < table.size) :
    (table.setIfInBounds k a).getD n.index d = if n = ⟨k⟩ then a else table.getD n.index d := by
  have hsame : k = n.index ↔ n = ⟨k⟩ :=
    ⟨fun h => NetId.eq_of_index n ⟨k⟩ h.symm, fun h => (congrArg NetId.index h).symm⟩
  rw [getD_setIfInBounds _ _ hn]
  simp only [hsame]

theorem Holds.writers_next {k : Nat} (ht : Holds w k t) {n : NetId}
    (hn : n.index < w.partition.size) :
    (t.writers.setIfInBounds k (ascendingBy BlockId.index (w.claimants ⟨k⟩))).getD n.index [] =
      if n.index < k + 1 then ascendingBy BlockId.index (w.claimants n) else [] := by
  rw [getD_set_next (ht.writers_size ▸ hn), ht.writers n hn]
  simp only [index_lt_succ]
  by_cases h : n = ⟨k⟩
  · subst h
    simp
  · simp [h]

/-- One more net is looked at. -/
theorem Holds.look {k : Nat} (ht : Holds w k t)
    (hclaims : claims.getD k [] = w.claims ⟨k⟩) :
    Holds w (k + 1) (DriverTables.look w claims t ⟨k⟩) := by
  rw [look_eq hclaims]
  by_cases hcontested : w.contested ⟨k⟩ = true
  · simp only [if_pos hcontested]
    refine ⟨ht.drivers_size, (Array.size_setIfInBounds ..).trans ht.writers_size,
      fun n hn => ?_, fun n hn => ht.writers_next hn, fun f => ?_⟩
    · show t.drivers.getD n.index none = _
      rw [ht.drivers n hn]
      simp only [index_lt_succ]
      by_cases h : n = ⟨k⟩
      · subst h
        simp [hcontested]
      · simp [h]
    · rw [ConflictTable.shows_enter, ht.conflicts]
      simp only [index_lt_succ, or_and_right, exists_or, exists_eq_left, hcontested, true_and]
  · simp only [if_neg hcontested]
    refine ⟨(Array.size_setIfInBounds ..).trans ht.drivers_size,
      (Array.size_setIfInBounds ..).trans ht.writers_size, fun n hn => ?_,
      fun n hn => ht.writers_next hn, fun f => ?_⟩
    · show (t.drivers.setIfInBounds k (w.driver? ⟨k⟩)).getD n.index none = _
      rw [getD_set_next (ht.drivers_size ▸ hn), ht.drivers n hn]
      simp only [index_lt_succ]
      by_cases h : n = ⟨k⟩
      · subst h
        simp [hcontested]
      · simp [h]
    · rw [ht.conflicts]
      simp only [index_lt_succ, or_and_right, exists_or, exists_eq_left, hcontested]
      simp

/-- All nets are looked at. -/
theorem holds_ofWiring (hclaims : ∀ n : NetId, n.index < w.partition.size →
    claims.getD n.index [] = w.claims n) : (ofWiring w claims).Holds w w.partition.size := by
  have hrun : ∀ k ≤ w.partition.size, Holds w k (((List.range k).map NetId.mk).foldl
      (DriverTables.look w claims) (start w.partition.size)) := by
    intro k hk
    induction k with
    | zero =>
      refine ⟨Array.size_replicate, Array.size_replicate, fun n _ => ?_, fun n _ => ?_,
        fun f => ?_⟩
      · rw [if_neg (by omega)]
        exact getD_replicate ..
      · rw [if_neg (by omega)]
        exact getD_replicate ..
      · refine iff_of_false ConflictTable.not_shows_empty ?_
        rintro ⟨n, hn, -⟩
        omega
    | succ k ih =>
      rw [List.range_succ, List.map_append, List.foldl_append]
      exact (ih (by omega)).look (hclaims ⟨k⟩ hk)
  exact hrun _ (Nat.le_refl _)

end DriverTables

/-! ## Reads -/

namespace Wiring

variable {w : Wiring} (hp : ∀ s n, w.partition.net? s = some n → n.index < w.partition.size)

theorem near_eq {s : SignalId} {n : NetId} (hn : w.partition.net? s = some n) :
    ∀ m, m ∈ w.near s ↔ m ∈ w.related n := by
  intro m
  unfold near related
  rw [hn, mem_ascendingBy_net]

include hp

/-- The nets near to the signals that a block reads are those that it reads. -/
theorem readNets_eq (access : BlockAccess) :
    ascendingBy NetId.index (access.reads.toList.flatMap w.near) =
      w.readNets w.relatedTable access := by
  refine eq_of_ascending (pairwise_ascendingBy _ _) (pairwise_ascendingBy _ _) fun n => ?_
  refine Iff.trans ?_ (mem_readNets hp).symm
  rw [mem_ascendingBy_net, List.mem_flatMap]
  refine exists_congr fun t => and_congr SignalSet.mem_toList ?_
  cases hm : w.partition.net? t with
  | none => simp [near, hm]
  | some m => simp [near_eq hm]

/-- Outputs that are near to no driven net are undriven. -/
theorem undrivenNear_eq {drivers : Array (Option Driver)}
    (hdrivers : ∀ n : NetId, n.index < w.partition.size →
      drivers.getD n.index none = w.driver? n) (top : ComponentId) :
    w.undrivenNear drivers top = w.undrivenOutputs top := by
  have hrelated : ∀ {n m}, m ∈ w.related n → drivers.getD m.index none = w.driver? m := by
    intro n m hm
    unfold related at hm
    rw [mem_ascendingBy_net, List.mem_flatMap] at hm
    obtain ⟨s, -, hm⟩ := hm
    obtain ⟨s', -, hs'⟩ := List.mem_filterMap.1 hm
    exact hdrivers m (hp s' m hs')
  unfold undrivenNear undrivenOutputs
  refine congrArg (List.map _) (List.filter_congr ?_)
  rintro ⟨s, d⟩ -
  refine congrArg (decide (d.kind = .outPort) && decide (d.owner = top) && ·) ?_
  cases hn : w.partition.net? s with
  | none => simp [near, hn]
  | some n =>
    rw [Bool.eq_iff_iff, Bool.not_eq_true', List.any_eq_false, List.all_eq_true]
    refine forall_congr' fun m => imp_congr_ctx (near_eq hn m) fun hm => ?_
    rw [hrelated hm]
    cases w.driver? m <;> simp

end Wiring

namespace ReadTables

/-- The tables after the blocks of `w`. -/
structure Holds (w : Wiring) (t : ReadTables) : Prop where
  size : t.readers.size = w.partition.size
  readers : ∀ n : NetId, n.index < w.partition.size → t.readers.getD n.index [] =
    (w.blocks.filter fun e => n ∈ w.readNets w.relatedTable e.2).map Prod.fst
  blockReads : ∀ b access, (b, access) ∈ w.blocks →
    t.blockReads.findD b [] = w.readNets w.relatedTable access

theorem size_foldl_modify (b : BlockId) (ns : List NetId) (readers : Array (List BlockId)) :
    (ns.foldl (fun readers n => readers.modify n.index (· ++ [b])) readers).size =
      readers.size := by
  induction ns generalizing readers with
  | nil => rfl
  | cons n ns ih => rw [List.foldl_cons, ih, Array.size_modify]

theorem getD_foldl_modify (b : BlockId) {ns : List NetId} (hns : ns.Nodup)
    {readers : Array (List BlockId)} {n : NetId} (hn : n.index < readers.size) :
    (ns.foldl (fun readers n => readers.modify n.index (· ++ [b])) readers).getD n.index [] =
      readers.getD n.index [] ++ if n ∈ ns then [b] else [] := by
  induction ns generalizing readers with
  | nil => exact (List.append_nil _).symm
  | cons n' ns ih =>
    obtain ⟨hnot, hns⟩ := List.nodup_cons.1 hns
    have hsame : n'.index = n.index ↔ n' = n := ⟨NetId.eq_of_index n' n, congrArg NetId.index⟩
    rw [List.foldl_cons, ih hns (by rwa [Array.size_modify]), getD_modify _ _ fun _ => hn]
    simp only [hsame]
    by_cases h : n' = n
    · subst h
      simp [hnot]
    · simp [h, Ne.symm h]

variable {signals : SignalTable} {p : Partition} {blocks : List (BlockId × BlockAccess)}
  {t : ReadTables}

/-- One more block is entered. -/
theorem Holds.enterBlock (hp : ∀ s n, p.net? s = some n → n.index < p.size)
    (ht : Holds ⟨signals, p, blocks⟩ t) (all : List (BlockId × BlockAccess))
    {e : BlockId × BlockAccess} (he : e.1 ∉ blocks.map Prod.fst) :
    Holds ⟨signals, p, blocks ++ [e]⟩ (ReadTables.enterBlock ⟨signals, p, all⟩ t e) := by
  have hreads : ascendingBy NetId.index
      (e.2.reads.toList.flatMap (Wiring.near ⟨signals, p, all⟩)) =
        Wiring.readNets ⟨signals, p, blocks ++ [e]⟩
          (Wiring.relatedTable ⟨signals, p, blocks ++ [e]⟩) e.2 :=
    Wiring.readNets_eq hp e.2
  unfold ReadTables.enterBlock
  simp only [hreads]
  refine ⟨(size_foldl_modify ..).trans ht.size, fun n hn => ?_, fun b access hb => ?_⟩
  · have hnodup : (Wiring.readNets ⟨signals, p, blocks ++ [e]⟩
        (Wiring.relatedTable ⟨signals, p, blocks ++ [e]⟩) e.2).Nodup :=
      nodup_of_ascending (pairwise_ascendingBy _ _)
    refine (getD_foldl_modify e.1 hnodup (ht.size ▸ hn)).trans ?_
    rw [ht.readers n hn, List.filter_append, List.map_append]
    refine congrArg _ ?_
    by_cases h : n ∈ Wiring.readNets ⟨signals, p, blocks ++ [e]⟩
        (Wiring.relatedTable ⟨signals, p, blocks ++ [e]⟩) e.2 <;> simp [h]
  · exact OrderedMap.findD_insert_of_concat ht.blockReads he hb

/-- All blocks are entered. -/
theorem holds_ofWiring {w : Wiring}
    (hp : ∀ s n, w.partition.net? s = some n → n.index < w.partition.size)
    (hw : (w.blocks.map Prod.fst).Nodup) : (ofWiring w).Holds w := by
  obtain ⟨signals, p, blocks⟩ := w
  have hrun : ∀ passed : List (BlockId × BlockAccess), (passed.map Prod.fst).Nodup →
      (passed.foldl (ReadTables.enterBlock ⟨signals, p, blocks⟩) (start p.size)).Holds
        ⟨signals, p, passed⟩ := by
    intro passed hpassed
    induction passed using List.reverseRecOn with
    | nil =>
      refine ⟨Array.size_replicate, fun n _ => getD_replicate p.size n.index [], ?_⟩
      intro b access hb
      cases hb
    | append_singleton passed e ih =>
      rw [List.map_append, List.nodup_append] at hpassed
      obtain ⟨hnodup, -, hdisjoint⟩ := hpassed
      rw [List.foldl_append]
      exact .enterBlock hp (ih hnodup) blocks fun he => hdisjoint e.1 he e.1 (by simp) rfl
  exact hrun blocks hw

end ReadTables

/-! ## All loops -/

/-- A wiring whose nets have the signals in them as members, and whose blocks differ. -/
structure Wiring.Proper (w : Wiring) : Prop where
  mem_membersOf : ∀ s n, s ∈ w.partition.membersOf n ↔ w.partition.net? s = some n
  index_lt : ∀ s n, w.partition.net? s = some n → n.index < w.partition.size
  nodup_blocks : (w.blocks.map Prod.fst).Nodup

theorem Wiring.proper_ofDesign (signals : SignalTable) (connections : List Connection)
    (x : Extraction) : (ofDesign signals connections x).Proper where
  mem_membersOf _ _ := Partition.mem_membersOf
  index_lt _ _ := Partition.index_lt_size_ofRoots
  nodup_blocks := by
    unfold ofDesign Extraction.blocks
    rw [List.map_map]
    exact x.analyzed.nodup_keys

namespace Wiring.Proper

variable {w : Wiring} (hw : w.Proper) {writes : WriteTables} (hwrites : writes.Holds w)
  {nets : DriverTables} (hnets : nets.Holds w w.partition.size)

include hw

theorem index_lt_of_overlaps {n : NetId} (h : w.overlaps n ≠ []) :
    n.index < w.partition.size := by
  obtain ⟨⟨⟨b, s⟩, b', whole⟩, ho⟩ := List.exists_mem_of_ne_nil _ h
  exact hw.index_lt s n ((hw.mem_membersOf s n).1 (mem_overlaps.1 ho).1)

include hwrites hnets

/-- The two passes for conflicts find all of them. -/
theorem complete : ConflictTable.Complete w (writes.signalWriters.entries.foldl
    (ConflictTable.overlap w writes.signalWriters) nets.conflicts) := fun f => by
  rw [ConflictTable.shows_overlaps hwrites.signalWriters hw.mem_membersOf, hnets.conflicts]

end Wiring.Proper

/-- Without conflicts the tables give the nets of the wiring. -/
theorem Wiring.netsOf_eq {w : Wiring} {writes : WriteTables} (hwrites : writes.Holds w)
    {nets : DriverTables} (hnets : nets.Holds w w.partition.size)
    (hdrivers : ∀ n : NetId, n.index < w.partition.size →
      nets.drivers.getD n.index none = w.driver? n) {reads : ReadTables} (hreads : reads.Holds w)
    (edges : List NetEdge) :
    w.netsOf writes nets reads edges =
      { netOf := w.partition.netOf
        nets := (w.partition.ids.map (w.net (w.blockNets w.relatedTable))).toArray
        blocks := OrderedMap.ofList (w.blockNets w.relatedTable)
        edges := edges } := by
  have hblocks : (w.blocks.map fun e =>
      (e.1, (⟨reads.blockReads.findD e.1 [], writes.blockWrites.findD e.1 []⟩ : BlockNets))) =
        w.blockNets w.relatedTable := by
    refine List.map_congr_left fun e he => ?_
    rw [hreads.blockReads e.1 e.2 he, hwrites.blockWrites e.1 e.2 he]
  have hnet : ∀ n ∈ w.partition.ids,
      { members := w.partition.membersOf n
        driver := nets.drivers.getD n.index none
        writers := nets.writers.getD n.index []
        readers := ascendingBy BlockId.index (reads.readers.getD n.index []) } =
      w.net (w.blockNets w.relatedTable) n := by
    intro n hn
    have hlt := Partition.mem_ids.1 hn
    rw [hdrivers n hlt, hnets.writers n hlt, if_pos hlt, hreads.readers n hlt]
    unfold net blockNets
    rw [List.filter_map, List.map_map]
    rfl
  unfold netsOf
  rw [List.map_congr_left hnet, ← hblocks]

/-- **Shared tables.**  The loops over shared tables resolve a design as `resolve` does. -/
theorem resolveInPlace_eq (signals : SignalTable) (connections : List Connection)
    (x : Extraction) (options : ResolveOptions) :
    resolveInPlace signals connections x options = resolve signals connections x options := by
  unfold resolveInPlace resolve
  cases hfind : (mentionedSignals connections x).find? fun s => !signals.contains s with
  | some s => rfl
  | none =>
    have hin : ∀ c ∈ connections, c.a.index < signals.size ∧ c.b.index < signals.size := by
      refine connection_lt_of_declared (x := x) fun s hs => ?_
      have hdeclared := List.find?_eq_none.1 hfind s hs
      simpa [SignalTable.contains] using hdeclared
    rw [Numbering.partition_ofConnections hin]
    have hproper := Wiring.proper_ofDesign signals connections x
    unfold Wiring.ofDesign at hproper
    generalize (⟨signals, Partition.ofConnections signals.size connections, x.blocks⟩ :
      Wiring) = w at hproper ⊢
    have hwrites := WriteTables.holds_ofWiring hproper.nodup_blocks
    have hnets := DriverTables.holds_ofWiring hwrites.claims
    have hcomplete := hproper.complete hwrites hnets
    have hreport := hcomplete.report_eq (fun _ => hproper.index_lt_of_overlaps) x.name
    have hreads := ReadTables.holds_ofWiring hproper.index_lt hproper.nodup_blocks
    simp only
    generalize WriteTables.ofWiring w = writes at *
    generalize DriverTables.ofWiring w writes.claims = nets at *
    generalize ReadTables.ofWiring w = reads at *
    have hempty := hcomplete.isEmpty_eq (fun _ => hproper.index_lt_of_overlaps) x.name
    rw [hempty, hreport]
    by_cases hconflicts : w.conflicts x.name = []
    · have hdrivers : ∀ n : NetId, n.index < w.partition.size →
          nets.drivers.getD n.index none = w.driver? n := by
        intro n hn
        have hfree := (Wiring.checks_of_conflicts hconflicts (Partition.mem_ids.2 hn)).1
        rw [hnets.drivers n hn, if_pos ⟨hn, hfree⟩]
      rw [Wiring.undrivenNear_eq hproper.index_lt hdrivers,
        Wiring.netsOf_eq hwrites hnets hdrivers hreads]
    · rw [if_pos (by simpa using hconflicts), if_pos (by simpa using hconflicts)]

end Cyclewise
