import Cyclewise.Proofs.Net.Conflicts
import Cyclewise.Proofs.Net.Edges

/-!
# Nets of reordered blocks

`resolve` goes through the blocks in the order in which they are listed.  The checks that it makes
depend on which blocks there are only (`Wiring.contested_congr`, `Wiring.overlaps_congr`), and so do
the nets with their ends and sites.  So extractions that hold the same resolve alike, or neither
resolves (`exists_resolve_of_alike`, `Resolves.alike`).
-/

namespace Cyclewise

/-! ## Wirings -/

namespace Wiring

/-- A wiring has no conflicts when no net is contested and none has overlapping writes. -/
theorem conflicts_eq_nil {w : Wiring} {name : BlockId → String} : w.conflicts name = [] ↔
    ∀ n ∈ w.partition.ids, w.contested n = false ∧ w.overlaps n = [] := by
  constructor
  · exact fun hw n hn => checks_of_conflicts hw hn
  · refine fun hall => List.eq_nil_iff_forall_not_mem.2 fun c hc => ?_
    obtain ⟨hids, hconflict⟩ := mem_conflicts.1 hc
    obtain ⟨hcontested, hoverlaps⟩ := hall _ hids
    rcases (conflict?_eq_some.1 hconflict).1 with hc | hc
    · rw [hcontested] at hc
      cases hc
    · exact hc hoverlaps

section

variable {signals : SignalTable} {partition : Partition}
  {blocks blocks' : List (BlockId × BlockAccess)} (h : ∀ p, p ∈ blocks' ↔ p ∈ blocks) {n : NetId}

include h

theorem mem_claims_congr {p : BlockId × SignalId} :
    p ∈ claims ⟨signals, partition, blocks'⟩ n ↔ p ∈ claims ⟨signals, partition, blocks⟩ n := by
  obtain ⟨b, s⟩ := p
  rw [mem_claims, mem_claims]
  simp only [h]

theorem claimants_congr {b : BlockId} :
    b ∈ claimants ⟨signals, partition, blocks'⟩ n ↔
      b ∈ claimants ⟨signals, partition, blocks⟩ n := by
  rw [mem_claimants, mem_claimants]
  simp only [h]

theorem contested_congr :
    contested ⟨signals, partition, blocks'⟩ n = contested ⟨signals, partition, blocks⟩ n := by
  have hconstants : constants ⟨signals, partition, blocks'⟩ n =
      constants ⟨signals, partition, blocks⟩ n := rfl
  rw [Bool.eq_iff_iff, contested_iff, contested_iff]
  simp only [claimants_congr h, mem_driving, mem_claims_congr h, hconstants]

theorem overlaps_congr : overlaps ⟨signals, partition, blocks'⟩ n = [] ↔
    overlaps ⟨signals, partition, blocks⟩ n = [] := by
  have hwriters : ∀ {b : BlockId} {s : SignalId},
      b ∈ writersOf ⟨signals, partition, blocks'⟩ s ↔
        b ∈ writersOf ⟨signals, partition, blocks⟩ s := by
    intro b s
    rw [mem_writersOf, mem_writersOf]
    simp only [h]
  simp only [List.eq_nil_iff_forall_not_mem, Prod.forall, mem_overlaps, hwriters]

theorem conflicts_congr {name name' : BlockId → String} :
    conflicts ⟨signals, partition, blocks'⟩ name' = [] ↔
      conflicts ⟨signals, partition, blocks⟩ name = [] := by
  rw [conflicts_eq_nil, conflicts_eq_nil]
  simp only [contested_congr h, overlaps_congr h]

theorem driver?_congr : (driver? ⟨signals, partition, blocks'⟩ n).isNone =
    (driver? ⟨signals, partition, blocks⟩ n).isNone := by
  rw [Bool.eq_iff_iff, Option.isNone_iff_eq_none, Option.isNone_iff_eq_none, driver?_eq_none,
    driver?_eq_none]
  simp only [List.eq_nil_iff_forall_not_mem, mem_claims_congr h]
  rfl

theorem undrivenOutputs_congr (top : ComponentId) :
    undrivenOutputs ⟨signals, partition, blocks'⟩ top =
      undrivenOutputs ⟨signals, partition, blocks⟩ top := by
  have hrelated : ∀ n, related ⟨signals, partition, blocks'⟩ n =
      related ⟨signals, partition, blocks⟩ n := fun _ => rfl
  unfold undrivenOutputs
  simp only [hrelated, driver?_congr h]

end

end Wiring

/-! ## Resolution -/

section

variable {signals : SignalTable} {connections : List Connection} {x x' : Extraction}
  {options : ResolveOptions} {nets nets' : NetMap}

/-- What `resolve` checks. -/
theorem exists_resolve_iff : (∃ nets, resolve signals connections x options = .ok nets) ↔
    (∀ s ∈ mentionedSignals connections x, s.index < signals.size) ∧
    (Wiring.ofDesign signals connections x).conflicts x.name = [] ∧
    (options.denyUndriven = true →
      (Wiring.ofDesign signals connections x).undrivenOutputs options.top = []) := by
  have houtputs : (if options.denyUndriven then
        (Wiring.ofDesign signals connections x).undrivenOutputs options.top else []) = [] ↔
      (options.denyUndriven = true →
        (Wiring.ofDesign signals connections x).undrivenOutputs options.top = []) := by
    cases options.denyUndriven with
    | true => simp
    | false => simp
  constructor
  · rintro ⟨nets, h⟩
    have hresolves := resolve_eq_ok h
    refine ⟨hresolves.declared, hresolves.conflicts, houtputs.1 ?_⟩
    have hfind := find?_undeclared hresolves.declared
    have hconflicts := hresolves.conflicts
    unfold Wiring.ofDesign at hconflicts ⊢
    unfold resolve at h
    simp only [hfind, hconflicts] at h
    by_contra hne
    rw [← List.isEmpty_iff, Bool.not_eq_true] at hne
    simp [hne] at h
  · rintro ⟨hdeclared, hconflicts, hdriven⟩
    have hfind := find?_undeclared hdeclared
    have hnone := houtputs.2 hdriven
    unfold Wiring.ofDesign at hconflicts hnone
    unfold resolve
    simp only [hfind, hconflicts, hnone]
    exact ⟨_, rfl⟩

theorem Extraction.Alike.mem_mentioned (hx : x.Alike x') {s : SignalId} :
    s ∈ mentionedSignals connections x' ↔ s ∈ mentionedSignals connections x := by
  unfold mentionedSignals
  simp only [List.mem_append, List.mem_flatMap, Prod.exists, Extraction.mem_blocks, hx.access?_eq]

theorem Extraction.Alike.mem_blocks (hx : x.Alike x') (p : BlockId × BlockAccess) :
    p ∈ x'.blocks ↔ p ∈ x.blocks := by
  obtain ⟨b, access⟩ := p
  rw [Extraction.mem_blocks, Extraction.mem_blocks, hx.access?_eq]

/-- Extractions that hold the same pass the same checks. -/
theorem exists_resolve_of_alike (hx : x.Alike x')
    (h : ∃ nets, resolve signals connections x options = .ok nets) :
    ∃ nets', resolve signals connections x' options = .ok nets' := by
  rw [exists_resolve_iff] at h ⊢
  obtain ⟨hdeclared, hconflicts, hdriven⟩ := h
  refine ⟨fun s hs => hdeclared s (hx.mem_mentioned.1 hs),
    (Wiring.conflicts_congr hx.mem_blocks).2 hconflicts, fun hdeny => ?_⟩
  exact (Wiring.undrivenOutputs_congr hx.mem_blocks options.top).trans (hdriven hdeny)

/-- Two maps have the same nets with the same ends and sites. -/
structure NetMap.Alike (nets nets' : NetMap) : Prop where
  size_eq : nets'.size = nets.size
  members_eq : ∀ n, nets'.members n = nets.members n
  writers_eq : ∀ n, nets'.writers n = nets.writers n
  readers_eq : ∀ n, nets'.readers n = nets.readers n
  mem_writeSites : ∀ {b n site}, site ∈ nets'.writeSites b n ↔ site ∈ nets.writeSites b n
  mem_readSites : ∀ {b n site}, site ∈ nets'.readSites b n ↔ site ∈ nets.readSites b n

theorem NetMap.Alike.symm (h : nets.Alike nets') : nets'.Alike nets :=
  ⟨h.size_eq.symm, fun n => (h.members_eq n).symm, fun n => (h.writers_eq n).symm,
    fun n => (h.readers_eq n).symm, h.mem_writeSites.symm, h.mem_readSites.symm⟩

theorem Resolves.alike (h : Resolves signals connections x nets)
    (h' : Resolves signals connections x' nets') (hx : x.Alike x') : nets.Alike nets' := by
  have hsize : nets'.size = nets.size := h'.size_eq.trans h.size_eq.symm
  have hnet : ∀ s, nets'.net? s = nets.net? s := fun s => (h'.net?_eq s).trans (h.net?_eq s).symm
  have hout : ∀ {n : NetId}, ¬ n.index < nets.size → nets'.get n = nets.get n := fun hn => by
    rw [NetMap.get_of_le (Nat.le_of_not_lt hn), NetMap.get_of_le (hsize ▸ Nat.le_of_not_lt hn)]
  refine ⟨hsize, fun n => ?_, fun n => ?_, fun n => ?_, ?_, ?_⟩
  · unfold NetMap.members
    by_cases hn : n.index < nets.size
    · rw [h.get_eq hn, h'.get_eq (hsize ▸ hn)]
      rfl
    · rw [hout hn]
  · refine eq_of_ascending (h'.writers_ascend n) (h.writers_ascend n) fun b => ?_
    rw [h.mem_writers, h'.mem_writers]
    simp only [hnet, hx.access?_eq]
  · by_cases hn : n.index < nets.size
    · refine eq_of_ascending (h'.readers_ascend n) (h.readers_ascend n) fun b => ?_
      rw [h.mem_readers_of_lt hn, h'.mem_readers_of_lt (hsize ▸ hn), hx.access?_eq]
      rfl
    · unfold NetMap.readers
      rw [hout hn]
  · intro b n site
    rw [h.mem_writeSites, h'.mem_writeSites]
    simp only [hnet, hx.mem_sites]
  · intro b n site
    rw [h.mem_readSites, h'.mem_readSites]
    simp only [hnet, hx.mem_sites]

end

end Cyclewise
