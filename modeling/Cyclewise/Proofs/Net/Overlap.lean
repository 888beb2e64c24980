import Cyclewise.Block.Stock
import Cyclewise.Proofs.Elaboration
import Cyclewise.Proofs.Net.Resolution

/-!
# Writers of overlapping storage

In a resolved design no net is written by two blocks, and no block writes a signal while another
block writes a whole around it (`resolve_writes_apart`).  The check for wholes looks at the written
signals only.  So it misses a whole that a block writes through a connected signal
(`aliased_whole`), although who reads that signal also reads the parts of the whole.
-/

namespace Cyclewise

namespace Wiring

variable {w : Wiring} {n : NetId} {b b' : BlockId} {s whole : SignalId}

theorem mem_writersOf :
    b ∈ w.writersOf s ↔ ∃ access, (b, access) ∈ w.blocks ∧ s ∈ access.writes := by
  unfold writersOf
  rw [List.mem_map]
  constructor
  · rintro ⟨⟨b, access⟩, h, rfl⟩
    obtain ⟨hb, hs⟩ := List.mem_filter.1 h
    exact ⟨access, hb, SignalSet.contains_eq_true.1 hs⟩
  · rintro ⟨access, hb, hs⟩
    exact ⟨(b, access), List.mem_filter.2 ⟨hb, SignalSet.contains_eq_true.2 hs⟩, rfl⟩

theorem mem_overlaps :
    ((b, s), (b', whole)) ∈ w.overlaps n ↔ s ∈ w.partition.membersOf n ∧ b ∈ w.writersOf s ∧
      whole ∈ w.signals.ancestors s ∧ b' ∈ w.writersOf whole ∧ b ≠ b' := by
  unfold overlaps
  simp only [List.mem_flatMap, List.mem_map, List.mem_filter, decide_eq_true_eq, Prod.mk.injEq]
  constructor
  · rintro ⟨s, hs, b, hb, whole, hwhole, b', ⟨hb', hne⟩, ⟨rfl, rfl⟩, rfl, rfl⟩
    exact ⟨hs, hb, hwhole, hb', hne⟩
  · rintro ⟨hs, hb, hwhole, hb', hne⟩
    exact ⟨s, hs, b, hb, whole, hwhole, b', ⟨hb', hne⟩, ⟨rfl, rfl⟩, rfl, rfl⟩

end Wiring

namespace Resolves

variable {signals : SignalTable} {connections : List Connection} {x : Extraction} {nets : NetMap}
  (h : Resolves signals connections x nets) {b b' : BlockId} {s s' : SignalId}

include h

/-- No block writes a part of what another block writes. -/
theorem not_partOf (hf : signals.Forest) (hne : b ≠ b') (hs : x.Writes b s) (hs' : x.Writes b' s') :
    ¬ signals.PartOf s s' := by
  intro hpart
  obtain ⟨access, haccess, hwrite⟩ := hs
  obtain ⟨access', haccess', hwrite'⟩ := hs'
  obtain ⟨n, hn⟩ := h.exists_net? (h.write_lt haccess hwrite)
  have hids : n ∈ (Wiring.ofDesign signals connections x).partition.ids :=
    Partition.mem_ids.2 (h.size_eq ▸ h.index_lt_size hn)
  have hoverlap : ((b, s), (b', s')) ∈ (Wiring.ofDesign signals connections x).overlaps n := by
    refine Wiring.mem_overlaps.2 ⟨?_, ?_, hf.mem_ancestors.2 hpart, ?_, hne⟩
    · exact Partition.mem_membersOf.2 ((h.net?_eq s).symm.trans hn)
    · exact Wiring.mem_writersOf.2 ⟨access, Extraction.mem_blocks.2 haccess, hwrite⟩
    · exact Wiring.mem_writersOf.2 ⟨access', Extraction.mem_blocks.2 haccess', hwrite'⟩
  rw [(Wiring.checks_of_conflicts h.conflicts hids).2] at hoverlap
  cases hoverlap

/-- No two blocks write signals that share storage. -/
theorem not_sharesStorage (hf : signals.Forest) (hne : b ≠ b') (hs : x.Writes b s)
    (hs' : x.Writes b' s') : ¬ signals.SharesStorage s s' := by
  rintro (rfl | hpart | hpart)
  · obtain ⟨access, haccess, hwrite⟩ := hs
    obtain ⟨access', haccess', hwrite'⟩ := hs'
    obtain ⟨n, hn⟩ := h.exists_net? (h.write_lt haccess hwrite)
    exact hne (h.writer_unique (h.mem_writers.2 ⟨access, haccess, s, hwrite, hn⟩)
      (h.mem_writers.2 ⟨access', haccess', s, hwrite', hn⟩))
  · exact h.not_partOf hf hne hs hs' hpart
  · exact h.not_partOf hf hne.symm hs' hs hpart

end Resolves

/-- **Overlapping storage.**  The nets that two blocks write are different and have no member in
common.  Where a member of one net is part of a member of the other one, the two blocks do not both
write these members themselves. -/
theorem resolve_writes_apart {signals : SignalTable} {connections : List Connection}
    {x : Extraction} {options : ResolveOptions} {nets : NetMap} (hsignals : signals.Built)
    (hnets : resolve signals connections x options = .ok nets) {b b' : BlockId} (hne : b ≠ b')
    {n n' : NetId} (hn : n ∈ nets.writesOf b) (hn' : n' ∈ nets.writesOf b') :
    n ≠ n' ∧ ∀ s ∈ nets.members n, ∀ s' ∈ nets.members n',
      s ≠ s' ∧ (signals.SharesStorage s s' → ¬ (x.Writes b s ∧ x.Writes b' s')) := by
  have h := resolve_eq_ok hnets
  have hnets_ne : n ≠ n' := by
    rintro rfl
    exact hne (h.writer_unique (h.mem_writesOf.1 hn) (h.mem_writesOf.1 hn'))
  refine ⟨hnets_ne, fun s hs s' hs' => ⟨?_, fun hshare ⟨hwrite, hwrite'⟩ => ?_⟩⟩
  · rintro rfl
    exact hnets_ne (Option.some.inj ((h.mem_members.1 hs).symm.trans (h.mem_members.1 hs')))
  · exact h.not_sharesStorage hsignals.forest hne hwrite hwrite' hshare

/-- Block 0 writes signal 2, which is connected to signal 0, and block 1 writes the part 1 of
signal 0.  Block 2 reads signal 2. -/
def Design.aliased : Design Unit :=
  ofEdits "top"
    [.declare "a" .wire "Bits8" Hierarchy.top, .declareChild ⟨0⟩ "[0]" "Bits1",
      .declare "b" .wire "Bits8" Hierarchy.top, .connect ⟨0⟩ ⟨2⟩,
      .declare "c" .wire "Bits8" Hierarchy.top,
      .registerBlock Hierarchy.top (.constant "whole" ⟨2⟩ 1),
      .registerBlock Hierarchy.top (.constant "part" ⟨1⟩ 1),
      .registerBlock Hierarchy.top (.copy "observe" ⟨2⟩ ⟨3⟩)]

/-- The two blocks write the nets 0 and 1, which hold the whole and the part, and block 2 reads both
nets. -/
theorem exists_aliased_nets : ∃ x nets, extract Design.aliased.liveBlocks = .ok x ∧
    resolve Design.aliased.signals Design.aliased.connections x ⟨false, Hierarchy.top⟩ = .ok nets ∧
    (⟨0⟩ ∈ nets.writesOf ⟨0⟩ ∧ ⟨1⟩ ∈ nets.writesOf ⟨1⟩) ∧
    (⟨0⟩ ∈ nets.members ⟨0⟩ ∧ ⟨1⟩ ∈ nets.members ⟨1⟩) ∧
    ⟨2⟩ ∈ nets.readers ⟨0⟩ ∧ ⟨2⟩ ∈ nets.readers ⟨1⟩ := by
  have hcheck : ((extract Design.aliased.liveBlocks).toOption.any fun x =>
      (resolve Design.aliased.signals Design.aliased.connections x
        ⟨false, Hierarchy.top⟩).toOption.any fun nets =>
          decide (⟨0⟩ ∈ nets.writesOf ⟨0⟩ ∧ ⟨1⟩ ∈ nets.writesOf ⟨1⟩) &&
          decide (⟨0⟩ ∈ nets.members ⟨0⟩ ∧ ⟨1⟩ ∈ nets.members ⟨1⟩) &&
          decide (⟨2⟩ ∈ nets.readers ⟨0⟩ ∧ ⟨2⟩ ∈ nets.readers ⟨1⟩)) = true := by
    decide +kernel
  obtain ⟨x, hx, hcheck⟩ := Design.exists_ok_of_any hcheck
  obtain ⟨nets, hnets, hcheck⟩ := Design.exists_ok_of_any hcheck
  simp only [Bool.and_eq_true, decide_eq_true_eq] at hcheck
  exact ⟨x, nets, hx, hnets, hcheck.1.1, hcheck.1.2, hcheck.2⟩

theorem aliased_writes_apart : ∃ x nets, extract Design.aliased.liveBlocks = .ok x ∧
    resolve Design.aliased.signals Design.aliased.connections x ⟨false, Hierarchy.top⟩ = .ok nets ∧
    (⟨0⟩ : NetId) ∈ nets.writesOf ⟨0⟩ ∧ (⟨1⟩ : NetId) ∈ nets.writesOf ⟨1⟩ ∧
    (⟨0⟩ : NetId) ≠ ⟨1⟩ ∧ ∀ s ∈ nets.members ⟨0⟩, ∀ s' ∈ nets.members ⟨1⟩,
      s ≠ s' ∧
        (Design.aliased.signals.SharesStorage s s' → ¬ (x.Writes ⟨0⟩ s ∧ x.Writes ⟨1⟩ s')) := by
  obtain ⟨x, nets, hx, hnets, ⟨hwhole, hpart⟩, -⟩ := exists_aliased_nets
  have hsignals : Design.aliased.signals.Built := (Design.built_ofEdits _ _).parts.2
  exact ⟨x, nets, hx, hnets, hwhole, hpart,
    resolve_writes_apart hsignals hnets (by decide) hwhole hpart⟩

/-- A whole and its part are members of nets that two blocks write.  A third block, which reads a
signal connected to the whole, is a reader of both nets. -/
theorem aliased_whole : ∃ x nets, extract Design.aliased.liveBlocks = .ok x ∧
    resolve Design.aliased.signals Design.aliased.connections x ⟨false, Hierarchy.top⟩ = .ok nets ∧
    ∃ n ∈ nets.writesOf ⟨0⟩, ∃ n' ∈ nets.writesOf ⟨1⟩,
      (∃ s ∈ nets.members n, ∃ s' ∈ nets.members n', Design.aliased.signals.PartOf s' s) ∧
      ⟨2⟩ ∈ nets.readers n ∧ ⟨2⟩ ∈ nets.readers n' := by
  have hparent : Design.aliased.signals.parent? ⟨1⟩ = some ⟨0⟩ := by decide +kernel
  obtain ⟨x, nets, hx, hnets, ⟨hwhole, hpart⟩, ⟨hmember, hmember'⟩, hreaders⟩ := exists_aliased_nets
  exact ⟨x, nets, hx, hnets, ⟨0⟩, hwhole, ⟨1⟩, hpart,
    ⟨⟨0⟩, hmember, ⟨1⟩, hmember', .single hparent⟩, hreaders⟩

end Cyclewise
