import Cyclewise.Proofs.Net.Overlap

/-!
# What blocks read and write

The relation between blocks and nets is kept twice, as the nets of each block and as the blocks of
each net.  The two agree.  A block writes the nets in which it writes a member.  It reads the nets
that share storage with the net of a signal that it reads: a connection and a step between a whole
and its part both lead on, each of them once (`resolve_accessed`).
-/

namespace Cyclewise

/-- A block is analysed, and it reads a signal itself. -/
def Extraction.Reads (x : Extraction) (b : BlockId) (s : SignalId) : Prop :=
  ∃ access, x.access? b = some access ∧ s ∈ access.reads

/-- Whom a net lists as its writers and readers, and what a block lists as its nets. -/
structure Accessed (signals : SignalTable) (x : Extraction) (nets : NetMap) : Prop where
  mem_readsOf : ∀ {b n}, n ∈ nets.readsOf b ↔ ∃ t, x.Reads b t ∧ ∃ m, nets.net? t = some m ∧
    ∃ s ∈ nets.members n, ∃ s' ∈ nets.members m, signals.SharesStorage s s'
  mem_writesOf : ∀ {b n}, n ∈ nets.writesOf b ↔ ∃ s ∈ nets.members n, x.Writes b s
  mem_readers : ∀ {b n}, b ∈ nets.readers n ↔ n ∈ nets.readsOf b
  mem_writers : ∀ {b n}, b ∈ nets.writers n ↔ n ∈ nets.writesOf b
  nets_ascend : ∀ b, (nets.readsOf b).Pairwise (·.index < ·.index) ∧
    (nets.writesOf b).Pairwise (·.index < ·.index)
  blocks_ascend : ∀ n, (nets.readers n).Pairwise (·.index < ·.index) ∧
    (nets.writers n).Pairwise (·.index < ·.index)

namespace Resolves

variable {signals : SignalTable} {connections : List Connection} {x : Extraction} {nets : NetMap}
  (h : Resolves signals connections x nets)

include h

/-- A list that is ascending in every entry is so for every block. -/
theorem getD_blocks_ascend (list : BlockNets → List NetId)
    (hlist : ∀ access, let w := Wiring.ofDesign signals connections x
      (list ⟨w.readNets w.relatedTable access, w.writeNets access⟩).Pairwise (·.index < ·.index))
    (b : BlockId) :
    (((nets.blocks.find? b).map list).getD []).Pairwise (·.index < ·.index) := by
  cases hentry : nets.blocks.find? b with
  | none => exact List.Pairwise.nil
  | some entry =>
    obtain ⟨access, -, rfl⟩ := h.find?_blocks.1 hentry
    exact hlist access

/-- The nets that a block reads touch the signals that it reads. -/
theorem mem_readsOf (hf : signals.Forest) {b : BlockId} {n : NetId} :
    n ∈ nets.readsOf b ↔ ∃ t, x.Reads b t ∧ nets.Touches signals t n := by
  refine (h.mem_getD_blocks BlockNets.reads).trans ?_
  constructor
  · rintro ⟨access, haccess, hn⟩
    obtain ⟨t, ht, htouch⟩ := (h.mem_readNets hf).1 hn
    exact ⟨t, ⟨access, haccess, ht⟩, htouch⟩
  · rintro ⟨t, ⟨access, haccess, ht⟩, htouch⟩
    exact ⟨access, haccess, (h.mem_readNets hf).2 ⟨t, ht, htouch⟩⟩

theorem touches_iff {t : SignalId} {n : NetId} :
    nets.Touches signals t n ↔ ∃ m, nets.net? t = some m ∧
      ∃ s ∈ nets.members n, ∃ s' ∈ nets.members m, signals.SharesStorage s s' := by
  refine exists_congr fun m => and_congr_right fun _ => ?_
  simp only [h.mem_members]
  constructor
  · rintro ⟨s, s', hs, hs', hshare⟩
    exact ⟨s', hs', s, hs, hshare.symm⟩
  · rintro ⟨s, hs, s', hs', hshare⟩
    exact ⟨s', s, hs', hs, hshare.symm⟩

theorem accessed (hf : signals.Forest) : Accessed signals x nets where
  mem_readsOf :=
    (h.mem_readsOf hf).trans (exists_congr fun _ => and_congr_right fun _ => h.touches_iff)
  mem_writesOf {b n} := by
    rw [h.mem_writesOf, h.mem_writers]
    simp only [h.mem_members]
    constructor
    · rintro ⟨access, haccess, s, hs, hn⟩
      exact ⟨s, hn, access, haccess, hs⟩
    · rintro ⟨s, hn, access, haccess, hs⟩
      exact ⟨access, haccess, s, hs, hn⟩
  mem_readers {b n} := by
    rw [h.mem_readers hf, h.mem_readsOf hf]
    constructor
    · rintro ⟨access, haccess, t, ht, htouch⟩
      exact ⟨t, ⟨access, haccess, ht⟩, htouch⟩
    · rintro ⟨t, ⟨access, haccess, ht⟩, htouch⟩
      exact ⟨access, haccess, t, ht, htouch⟩
  mem_writers := h.mem_writesOf.symm
  nets_ascend b :=
    ⟨h.getD_blocks_ascend BlockNets.reads (fun _ => pairwise_ascendingBy ..) b,
      h.getD_blocks_ascend BlockNets.writes (fun _ => pairwise_ascendingBy ..) b⟩
  blocks_ascend n := ⟨h.readers_ascend n, h.writers_ascend n⟩

end Resolves

/-- **Readers and writers.**  In a resolved design a block reads a net exactly when a member of it
is, is part of, or is a whole around a member of the net of some signal that the block reads, and
it writes a net exactly when it writes a member.  The nets list the blocks by which they are read
and written, and all lists are strictly ascending. -/
theorem resolve_accessed {signals : SignalTable} {connections : List Connection}
    {x : Extraction} {options : ResolveOptions} {nets : NetMap} (hsignals : signals.Built)
    (hnets : resolve signals connections x options = .ok nets) : Accessed signals x nets :=
  (resolve_eq_ok hnets).accessed hsignals.forest

/-- Block 2 reads signal 2 only.  It reads net 0 through the connection of this signal to signal 0,
and net 1 through the part 1 of that one. -/
theorem aliased_accessed : ∃ x nets, extract Design.aliased.liveBlocks = .ok x ∧
    resolve Design.aliased.signals Design.aliased.connections x ⟨false, Hierarchy.top⟩ = .ok nets ∧
    Accessed Design.aliased.signals x nets ∧
    (∃ t, x.Reads ⟨2⟩ t ∧ ∃ m, nets.net? t = some m ∧
      ∃ s ∈ nets.members ⟨1⟩, ∃ s' ∈ nets.members m,
        Design.aliased.signals.SharesStorage s s') ∧
    ⟨1⟩ ∈ nets.readsOf ⟨2⟩ ∧ ∃ s ∈ nets.members ⟨1⟩, x.Writes ⟨1⟩ s := by
  obtain ⟨x, nets, hx, hnets, ⟨-, hpart⟩, -, -, hreader⟩ := exists_aliased_nets
  have haccessed : Accessed Design.aliased.signals x nets :=
    resolve_accessed (Design.built_ofEdits _ _).parts.2 hnets
  have hreads := haccessed.mem_readers.1 hreader
  exact ⟨x, nets, hx, hnets, haccessed, haccessed.mem_readsOf.1 hreads, hreads,
    haccessed.mem_writesOf.1 hpart⟩

end Cyclewise
