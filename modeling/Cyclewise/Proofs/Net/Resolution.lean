import Cyclewise.Net.Resolution
import Cyclewise.Proofs.BitSet
import Cyclewise.Proofs.Block.Extraction
import Cyclewise.Proofs.Net.Partition
import Cyclewise.Proofs.Numbers
import Cyclewise.Proofs.Signal.Forest

/-!
# Who writes and who reads a resolved net

A successful resolution has checked its signals and found no conflict (`resolve_eq_ok`).  In the map
that it gives, a net is written by the blocks that write one of its members (`mem_writers`), of
which there is at most one (`writer_unique`), and it is read by the blocks that read a signal whose
net shares storage with it (`mem_readers`).
-/

namespace Cyclewise

/-! ## Lists of blocks and nets -/

theorem BlockId.eq_of_index (a b : BlockId) (h : a.index = b.index) : a = b :=
  congrArg BlockId.mk h

theorem SignalId.eq_of_index (a b : SignalId) (h : a.index = b.index) : a = b :=
  congrArg SignalId.mk h

theorem NetId.eq_of_index (a b : NetId) (h : a.index = b.index) : a = b := congrArg NetId.mk h

theorem mem_ascendingBy_block {b : BlockId} {bs : List BlockId} :
    b ∈ ascendingBy BlockId.index bs ↔ b ∈ bs :=
  mem_ascendingBy BlockId.eq_of_index

theorem mem_ascendingBy_net {n : NetId} {ns : List NetId} :
    n ∈ ascendingBy NetId.index ns ↔ n ∈ ns :=
  mem_ascendingBy NetId.eq_of_index

/-- A list without a second item has one item at most. -/
theorem eq_of_mem_of_length_le {α : Type} {l : List α} (h : ¬ 1 < l.length) {a b : α} (ha : a ∈ l)
    (hb : b ∈ l) : a = b := by
  cases l with
  | nil => cases ha
  | cons c rest =>
    have hrest : rest = [] := by
      rw [List.length_cons] at h
      exact List.eq_nil_of_length_eq_zero (by omega)
    rw [hrest, List.mem_singleton] at ha hb
    exact ha.trans hb.symm

namespace Wiring

/-- The wiring that `resolve` looks at. -/
def ofDesign (signals : SignalTable) (connections : List Connection) (x : Extraction) : Wiring :=
  ⟨signals, Partition.ofConnections signals.size connections, x.blocks⟩

variable {w : Wiring} {n m : NetId} {b b' : BlockId} {s : SignalId}

theorem mem_claims :
    (b, s) ∈ w.claims n ↔
      ∃ access, (b, access) ∈ w.blocks ∧ s ∈ access.writes ∧ w.partition.net? s = some n := by
  unfold claims
  rw [List.mem_flatMap]
  constructor
  · rintro ⟨⟨b, access⟩, hb, h⟩
    obtain ⟨s, hs, h⟩ := List.mem_map.1 h
    obtain ⟨rfl, rfl⟩ := Prod.mk.inj h
    rw [List.mem_filter, SignalSet.mem_toList, decide_eq_true_eq] at hs
    exact ⟨access, hb, hs⟩
  · rintro ⟨access, hb, hs, hn⟩
    refine ⟨(b, access), hb, List.mem_map.2 ⟨s, ?_, rfl⟩⟩
    rw [List.mem_filter, SignalSet.mem_toList, decide_eq_true_eq]
    exact ⟨hs, hn⟩

theorem mem_claimants :
    b ∈ w.claimants n ↔ ∃ access, (b, access) ∈ w.blocks ∧
      ∃ s ∈ access.writes, w.partition.net? s = some n := by
  unfold claimants
  rw [List.mem_eraseDups, List.mem_map]
  constructor
  · rintro ⟨⟨b, s⟩, h, rfl⟩
    obtain ⟨access, hb, hs, hn⟩ := mem_claims.1 h
    exact ⟨access, hb, s, hs, hn⟩
  · rintro ⟨access, hb, s, hs, hn⟩
    exact ⟨(b, s), mem_claims.2 ⟨access, hb, hs, hn⟩, rfl⟩

/-- A net that is not contested has one writer at most. -/
theorem claimant_unique (h : w.contested n = false) (hb : b ∈ w.claimants n)
    (hb' : b' ∈ w.claimants n) : b = b' := by
  unfold contested at h
  rw [Bool.or_eq_false_iff, decide_eq_false_iff_not] at h
  exact eq_of_mem_of_length_le h.1 hb hb'

/-- Without conflicts no net is contested, and none has overlapping writes. -/
theorem checks_of_conflicts {name : BlockId → String} (h : w.conflicts name = [])
    (hn : n ∈ w.partition.ids) : w.contested n = false ∧ w.overlaps n = [] := by
  have hnone : w.conflict? name n = none := by
    cases hc : w.conflict? name n with
    | none => rfl
    | some c =>
      have hmem : c ∈ w.conflicts name := List.mem_filterMap.2 ⟨n, hn, hc⟩
      rw [h] at hmem
      cases hmem
  unfold conflict? at hnone
  simp only at hnone
  split at hnone
  · cases hnone
  · next hcond =>
    rw [Bool.not_eq_true, Bool.or_eq_false_iff, Bool.not_eq_false'] at hcond
    exact hcond.imp_right List.isEmpty_iff.1

/-! ## Readers -/

theorem mem_sharing (hf : w.signals.Forest) {s' : SignalId} :
    s' ∈ w.sharing s ↔ w.signals.SharesStorage s s' := by
  unfold sharing SignalTable.SharesStorage
  rw [List.mem_cons, List.mem_append, hf.mem_ancestors, hf.mem_descendants]
  constructor
  · rintro (h | h)
    · exact .inl h.symm
    · exact .inr h
  · rintro (h | h)
    · exact .inl h.symm
    · exact .inr h

theorem mem_related (hf : w.signals.Forest) :
    m ∈ w.related n ↔ ∃ s ∈ w.partition.membersOf n, ∃ s', w.signals.SharesStorage s s' ∧
      w.partition.net? s' = some m := by
  unfold related
  rw [mem_ascendingBy_net, List.mem_flatMap]
  refine exists_congr fun s => and_congr_right fun _ => ?_
  rw [List.mem_filterMap]
  exact exists_congr fun s' => and_congr_left fun _ => mem_sharing hf

theorem getD_relatedTable (h : n.index < w.partition.size) :
    w.relatedTable.getD n.index [] = w.related n := by
  unfold relatedTable Partition.ids
  rw [Array.getD_eq_getD_getElem?]
  simp [h]

theorem mem_readNets (hnet : ∀ s n, w.partition.net? s = some n → n.index < w.partition.size)
    {access : BlockAccess} :
    n ∈ w.readNets w.relatedTable access ↔
      ∃ t ∈ access.reads, ∃ m, w.partition.net? t = some m ∧ n ∈ w.related m := by
  unfold readNets
  rw [mem_ascendingBy_net, List.mem_flatMap]
  constructor
  · rintro ⟨m, hm, hn⟩
    obtain ⟨t, ht, hm⟩ := List.mem_filterMap.1 hm
    rw [getD_relatedTable (hnet t m hm)] at hn
    exact ⟨t, SignalSet.mem_toList.1 ht, m, hm, hn⟩
  · rintro ⟨t, ht, m, hm, hn⟩
    refine ⟨m, List.mem_filterMap.2 ⟨t, SignalSet.mem_toList.2 ht, hm⟩, ?_⟩
    rwa [getD_relatedTable (hnet t m hm)]

theorem mem_writeNets {access : BlockAccess} :
    n ∈ w.writeNets access ↔ ∃ s ∈ access.writes, w.partition.net? s = some n := by
  unfold writeNets
  rw [mem_ascendingBy_net, List.mem_filterMap]
  exact exists_congr fun s => and_congr_left fun _ => SignalSet.mem_toList

end Wiring

/-! ## The map of nets -/

section

variable {connections : List Connection} {x : Extraction}

theorem mentioned_of_connection {c : Connection} (hc : c ∈ connections) :
    c.a ∈ mentionedSignals connections x ∧ c.b ∈ mentionedSignals connections x := by
  have hmem : ∀ s ∈ [c.a, c.b], s ∈ mentionedSignals connections x := fun s hs =>
    List.mem_append_left _ (List.mem_flatMap.2 ⟨c, hc, hs⟩)
  exact ⟨hmem c.a (by simp), hmem c.b (by simp)⟩

theorem mentioned_of_access {b : BlockId} {access : BlockAccess} (hb : x.access? b = some access)
    {s : SignalId} (hs : s ∈ access.reads ∨ s ∈ access.writes) :
    s ∈ mentionedSignals connections x := by
  refine List.mem_append_right _ (List.mem_flatMap.2 ⟨(b, access), Extraction.mem_blocks.2 hb, ?_⟩)
  exact List.mem_append.2 (hs.imp SignalSet.mem_toList.2 SignalSet.mem_toList.2)

variable {signals : SignalTable}

/-- Among declared signals there is no first undeclared one. -/
theorem find?_undeclared {ss : List SignalId} (h : ∀ s ∈ ss, s.index < signals.size) :
    (ss.find? fun s => !signals.contains s) = none := by
  refine List.find?_eq_none.2 fun s hs => ?_
  simpa [SignalTable.contains] using h s hs

theorem connection_lt_of_declared
    (h : ∀ s ∈ mentionedSignals connections x, s.index < signals.size) :
    ∀ c ∈ connections, c.a.index < signals.size ∧ c.b.index < signals.size := fun _ hc =>
  ⟨h _ (mentioned_of_connection hc).1, h _ (mentioned_of_connection hc).2⟩

end

/-- What a successful resolution has checked, and the map that it gives. -/
structure Resolves (signals : SignalTable) (connections : List Connection) (x : Extraction)
    (nets : NetMap) : Prop where
  declared : ∀ s ∈ mentionedSignals connections x, s.index < signals.size
  conflicts : (Wiring.ofDesign signals connections x).conflicts x.name = []
  map_eq : nets =
    let w := Wiring.ofDesign signals connections x
    { netOf := w.partition.netOf
      nets := (w.partition.ids.map (w.net (w.blockNets w.relatedTable))).toArray
      blocks := OrderedMap.ofList (w.blockNets w.relatedTable)
      edges := w.partition.netEdges x.deps }

theorem resolve_eq_ok {signals : SignalTable} {connections : List Connection} {x : Extraction}
    {options : ResolveOptions} {nets : NetMap}
    (h : resolve signals connections x options = .ok nets) :
    Resolves signals connections x nets := by
  unfold resolve at h
  split at h
  · cases h
  · next hfind =>
    simp only at h
    split at h
    · cases h
    · next hconflicts =>
      generalize (if options.denyUndriven = true then _ else _) = outputs at h
      split at h
      · cases h
      · refine ⟨fun s hs => ?_, ?_, (Except.ok.inj h).symm⟩
        · have hin := List.find?_eq_none.1 hfind s hs
          simpa [SignalTable.contains] using hin
        · rw [Bool.not_eq_true, Bool.not_eq_false'] at hconflicts
          exact List.isEmpty_iff.1 hconflicts

theorem NetMap.get_of_le {nets : NetMap} {n : NetId} (hn : nets.size ≤ n.index) :
    nets.get n = Net.none := by
  rw [NetMap.get, Array.getD_eq_getD_getElem?, Array.getElem?_eq_none hn, Option.getD_none]

/-- The net `n` shares storage with the net of `t`: some signals in the two nets do. -/
def NetMap.Touches (nets : NetMap) (signals : SignalTable) (t : SignalId) (n : NetId) : Prop :=
  ∃ m, nets.net? t = some m ∧ ∃ s s', nets.net? s = some m ∧ nets.net? s' = some n ∧
    signals.SharesStorage s s'

namespace Resolves

variable {signals : SignalTable} {connections : List Connection} {x : Extraction} {nets : NetMap}
  (h : Resolves signals connections x nets)

include h

theorem connection_lt : ∀ c ∈ connections,
    c.a.index < signals.size ∧ c.b.index < signals.size :=
  connection_lt_of_declared h.declared

theorem read_lt {b : BlockId} {access : BlockAccess} (hb : x.access? b = some access)
    {s : SignalId} (hs : s ∈ access.reads) : s.index < signals.size :=
  h.declared s (mentioned_of_access hb (.inl hs))

theorem write_lt {b : BlockId} {access : BlockAccess} (hb : x.access? b = some access)
    {s : SignalId} (hs : s ∈ access.writes) : s.index < signals.size :=
  h.declared s (mentioned_of_access hb (.inr hs))

theorem net?_eq (s : SignalId) :
    nets.net? s = (Partition.ofConnections signals.size connections).net? s := by
  rw [h.map_eq]
  rfl

theorem exists_net? {s : SignalId} (hs : s.index < signals.size) : ∃ n, nets.net? s = some n := by
  rw [h.net?_eq]
  exact Partition.exists_net? hs

theorem lt_of_net? {s : SignalId} {n : NetId} (hn : nets.net? s = some n) :
    s.index < signals.size := by
  rw [h.net?_eq] at hn
  exact Partition.lt_of_net? hn

/-- The signals that have a net are the declared ones. -/
theorem exists_net?_iff (s : SignalId) : (∃ n, nets.net? s = some n) ↔ s.index < signals.size := by
  constructor
  · rintro ⟨n, hn⟩
    exact h.lt_of_net? hn
  · exact h.exists_net?

/-- Connected signals are in one net, others are not. -/
theorem net?_eq_iff {s t : SignalId} (hs : s.index < signals.size) (ht : t.index < signals.size) :
    nets.net? s = nets.net? t ↔ Connected connections s t := by
  rw [h.net?_eq, h.net?_eq]
  exact Partition.net?_eq_iff_connected h.connection_lt hs ht

theorem size_eq : nets.size = (Wiring.ofDesign signals connections x).partition.size := by
  unfold NetMap.size
  rw [h.map_eq]
  simp [Partition.ids]

theorem get_eq {n : NetId} (hn : n.index < nets.size) :
    nets.get n =
      let w := Wiring.ofDesign signals connections x
      w.net (w.blockNets w.relatedTable) n := by
  rw [h.size_eq] at hn
  unfold NetMap.get
  rw [h.map_eq]
  simp [Partition.ids, hn, Array.getD_eq_getD_getElem?]

theorem index_lt_size {s : SignalId} {n : NetId} (hn : nets.net? s = some n) :
    n.index < nets.size := by
  rw [h.size_eq]
  rw [h.net?_eq] at hn
  exact Partition.index_lt_size_ofRoots hn

/-- The writers of a net are the blocks that write one of its members. -/
theorem mem_writers {n : NetId} {b : BlockId} :
    b ∈ nets.writers n ↔ ∃ access, x.access? b = some access ∧
      ∃ s ∈ access.writes, nets.net? s = some n := by
  have hclaim : b ∈ (Wiring.ofDesign signals connections x).claimants n ↔
      ∃ access, x.access? b = some access ∧ ∃ s ∈ access.writes, nets.net? s = some n := by
    rw [Wiring.mem_claimants]
    refine exists_congr fun access => and_congr Extraction.mem_blocks ?_
    exact exists_congr fun s => and_congr_right fun _ => by rw [h.net?_eq]; rfl
  unfold NetMap.writers
  by_cases hn : n.index < nets.size
  · rw [h.get_eq hn, ← hclaim]
    exact mem_ascendingBy_block
  · rw [NetMap.get_of_le (Nat.le_of_not_lt hn)]
    constructor
    · intro hb
      cases hb
    · rintro ⟨access, -, s, -, hs⟩
      exact absurd (h.index_lt_size hs) hn

/-- The nets of a block are kept under its number. -/
theorem find?_blocks {b : BlockId} {entry : BlockNets} :
    nets.blocks.find? b = some entry ↔
      let w := Wiring.ofDesign signals connections x
      ∃ access, x.access? b = some access ∧
        entry = ⟨w.readNets w.relatedTable access, w.writeNets access⟩ := by
  have hnodup : (((Wiring.ofDesign signals connections x).blockNets
      (Wiring.ofDesign signals connections x).relatedTable).map Prod.fst).Nodup := by
    unfold Wiring.blockNets Wiring.ofDesign Extraction.blocks
    rw [List.map_map, List.map_map]
    exact x.analyzed.nodup_keys
  rw [h.map_eq, ← OrderedMap.mem_entries_iff, OrderedMap.entries_ofList hnodup]
  unfold Wiring.blockNets
  rw [List.mem_map]
  constructor
  · rintro ⟨⟨b, access⟩, hmem, heq⟩
    obtain ⟨rfl, rfl⟩ := Prod.mk.inj heq
    exact ⟨access, Extraction.mem_blocks.1 hmem, rfl⟩
  · rintro ⟨access, haccess, rfl⟩
    exact ⟨(b, access), Extraction.mem_blocks.2 haccess, rfl⟩

/-- What the entry of a block lists, the accesses of the block give. -/
theorem mem_getD_blocks {b : BlockId} {n : NetId} (list : BlockNets → List NetId) :
    n ∈ ((nets.blocks.find? b).map list).getD [] ↔
      let w := Wiring.ofDesign signals connections x
      ∃ access, x.access? b = some access ∧
        n ∈ list ⟨w.readNets w.relatedTable access, w.writeNets access⟩ := by
  constructor
  · intro hn
    cases hentry : nets.blocks.find? b with
    | none =>
      rw [hentry] at hn
      cases hn
    | some entry =>
      rw [hentry] at hn
      obtain ⟨access, haccess, rfl⟩ := h.find?_blocks.1 hentry
      exact ⟨access, haccess, hn⟩
  · rintro ⟨access, haccess, hn⟩
    rwa [h.find?_blocks.2 ⟨access, haccess, rfl⟩]

/-- A block writes the nets that it is a writer of. -/
theorem mem_writesOf {n : NetId} {b : BlockId} : n ∈ nets.writesOf b ↔ b ∈ nets.writers n := by
  rw [h.mem_writers]
  refine (h.mem_getD_blocks BlockNets.writes).trans ?_
  refine exists_congr fun access => and_congr_right fun _ => Wiring.mem_writeNets.trans ?_
  exact exists_congr fun s => and_congr_right fun _ => by rw [h.net?_eq]; rfl

/-- No net has two writers. -/
theorem writer_unique {n : NetId} {b b' : BlockId} (hb : b ∈ nets.writers n)
    (hb' : b' ∈ nets.writers n) : b = b' := by
  obtain ⟨access, haccess, s, hs, hn⟩ := h.mem_writers.1 hb
  have hlt := h.index_lt_size hn
  have hids : n ∈ (Wiring.ofDesign signals connections x).partition.ids :=
    Partition.mem_ids.2 (h.size_eq ▸ hlt)
  unfold NetMap.writers at hb hb'
  rw [h.get_eq hlt] at hb hb'
  exact Wiring.claimant_unique (Wiring.checks_of_conflicts h.conflicts hids).1
    (mem_ascendingBy_block.1 hb) (mem_ascendingBy_block.1 hb')

/-- The nets related to that of a signal are those that share storage with it. -/
theorem mem_related (hf : signals.Forest) {t : SignalId} {m n : NetId}
    (hm : nets.net? t = some m) :
    n ∈ (Wiring.ofDesign signals connections x).related m ↔ nets.Touches signals t n := by
  have hnet : ∀ s, nets.net? s = (Wiring.ofDesign signals connections x).partition.net? s :=
    h.net?_eq
  rw [Wiring.mem_related hf]
  constructor
  · rintro ⟨s, hs, s', hshare, hn⟩
    exact ⟨m, hm, s, s', (hnet s).trans (Partition.mem_membersOf.1 hs), (hnet s').trans hn, hshare⟩
  · rintro ⟨m', hm', s, s', hs, hn, hshare⟩
    obtain rfl := Option.some.inj (hm'.symm.trans hm)
    exact ⟨s, Partition.mem_membersOf.2 ((hnet s).symm.trans hs), s', hshare,
      (hnet s').symm.trans hn⟩

theorem mem_readNets (hf : signals.Forest) {n : NetId} {access : BlockAccess} :
    let w := Wiring.ofDesign signals connections x
    n ∈ w.readNets w.relatedTable access ↔ ∃ t ∈ access.reads, nets.Touches signals t n := by
  intro w
  have hindex : ∀ s n, w.partition.net? s = some n → n.index < w.partition.size :=
    fun s n hn => Partition.index_lt_size_ofRoots hn
  have hnet : ∀ s, nets.net? s = w.partition.net? s := h.net?_eq
  rw [Wiring.mem_readNets hindex]
  refine exists_congr fun t => and_congr_right fun _ => ?_
  constructor
  · rintro ⟨m, hm, hn⟩
    exact (h.mem_related hf ((hnet t).trans hm)).1 hn
  · rintro ⟨m, hm, hshare⟩
    exact ⟨m, (hnet t).symm.trans hm, (h.mem_related hf hm).2 ⟨m, hm, hshare⟩⟩

/-- The readers of a net are the blocks among whose nets it is. -/
theorem mem_readers_of_lt {n : NetId} (hn : n.index < nets.size) {b : BlockId} :
    b ∈ nets.readers n ↔ ∃ access, x.access? b = some access ∧
      n ∈ (Wiring.ofDesign signals connections x).readNets
        (Wiring.ofDesign signals connections x).relatedTable access := by
  unfold NetMap.readers
  rw [h.get_eq hn]
  show b ∈ ascendingBy BlockId.index _ ↔ _
  rw [mem_ascendingBy_block, List.mem_map]
  constructor
  · rintro ⟨⟨b, nets'⟩, hmem, rfl⟩
    obtain ⟨hblock, hread⟩ := List.mem_filter.1 hmem
    obtain ⟨⟨b, access⟩, haccess, heq⟩ := List.mem_map.1 hblock
    obtain ⟨rfl, rfl⟩ := Prod.mk.inj heq
    rw [decide_eq_true_eq] at hread
    exact ⟨access, Extraction.mem_blocks.1 haccess, hread⟩
  · rintro ⟨access, haccess, hread⟩
    refine ⟨(b, _), List.mem_filter.2 ⟨List.mem_map.2 ⟨(b, access), ?_, rfl⟩, ?_⟩, rfl⟩
    · exact Extraction.mem_blocks.2 haccess
    · rw [decide_eq_true_eq]
      exact hread

/-- The readers of a net are the blocks that read a signal whose net shares storage with it. -/
theorem mem_readers (hf : signals.Forest) {n : NetId} {b : BlockId} :
    b ∈ nets.readers n ↔ ∃ access, x.access? b = some access ∧
      ∃ t ∈ access.reads, nets.Touches signals t n := by
  by_cases hn : n.index < nets.size
  · rw [h.mem_readers_of_lt hn]
    exact exists_congr fun access => and_congr_right fun _ => h.mem_readNets hf
  · unfold NetMap.readers
    rw [NetMap.get_of_le (Nat.le_of_not_lt hn)]
    constructor
    · intro hb
      cases hb
    · rintro ⟨access, -, t, -, m, -, s, s', -, hs', -⟩
      exact absurd (h.index_lt_size hs') hn

theorem mem_members {n : NetId} {s : SignalId} :
    s ∈ nets.members n ↔ nets.net? s = some n := by
  rw [h.net?_eq, ← Partition.mem_membersOf]
  unfold NetMap.members
  by_cases hn : n.index < nets.size
  · rw [h.get_eq hn]
    rfl
  · rw [NetMap.get_of_le (Nat.le_of_not_lt hn), Partition.mem_membersOf, ← h.net?_eq]
    constructor
    · intro hs
      cases hs
    · exact fun hs => absurd (h.index_lt_size hs) hn

/-- Writers are listed by ascending number. -/
theorem writers_ascend (n : NetId) : (nets.writers n).Pairwise (·.index < ·.index) := by
  unfold NetMap.writers
  by_cases hn : n.index < nets.size
  · rw [h.get_eq hn]
    exact pairwise_ascendingBy ..
  · rw [NetMap.get_of_le (Nat.le_of_not_lt hn)]
    exact List.Pairwise.nil

/-- Readers are listed by ascending number. -/
theorem readers_ascend (n : NetId) : (nets.readers n).Pairwise (·.index < ·.index) := by
  unfold NetMap.readers
  by_cases hn : n.index < nets.size
  · rw [h.get_eq hn]
    exact pairwise_ascendingBy ..
  · rw [NetMap.get_of_le (Nat.le_of_not_lt hn)]
    exact List.Pairwise.nil

theorem writer_mem_keys {n : NetId} {b : BlockId} (hb : b ∈ nets.writers n) :
    b ∈ x.analyzed.keys := by
  obtain ⟨access, haccess, -⟩ := h.mem_writers.1 hb
  exact Extraction.mem_keys_of_access? haccess

theorem reader_mem_keys {n : NetId} {b : BlockId} (hb : b ∈ nets.readers n) :
    b ∈ x.analyzed.keys := by
  by_cases hn : n.index < nets.size
  · obtain ⟨access, haccess, -⟩ := (h.mem_readers_of_lt hn).1 hb
    exact Extraction.mem_keys_of_access? haccess
  · unfold NetMap.readers at hb
    rw [NetMap.get_of_le (Nat.le_of_not_lt hn)] at hb
    cases hb

end Resolves

end Cyclewise
