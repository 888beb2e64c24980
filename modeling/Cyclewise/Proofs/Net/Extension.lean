import Cyclewise.Proofs.Net.Canonical
import Cyclewise.Proofs.Net.Reordering

/-!
# Nets of a table with more declarations

Signals that no connection and no block names are declared in addition.  Each of them is alone in
its net, and the nets from before keep their numbers, since the classes are numbered in the order of
first occurrence (`Partition.net?_extend`).  Nobody writes a new signal, so there are no new
conflicts (`exists_resolve_extend`).  A new part of a signal is read by whoever reads the whole, but
the nets from before are read and written by the same blocks (`Resolves.readers_extend`,
`Resolves.writers_extend`).
-/

namespace Cyclewise

namespace Partition

/-! ## More signals -/

/-- What comes later in the list does not change the first occurrences. -/
theorem net?_ofRoots_append {roots more : List Nat} {s : SignalId} (hs : s.index < roots.length) :
    (ofRoots (roots ++ more)).net? s = (ofRoots roots).net? s := by
  rw [net?_ofRoots, net?_ofRoots, List.getElem?_append_left hs, List.getElem?_eq_getElem hs,
    List.eraseDups_append, Option.map_some, Option.map_some]
  have hmem : roots[s.index] ∈ roots.eraseDups := List.mem_eraseDups.2 (List.getElem_mem hs)
  rw [List.idxOf_append_of_mem hmem]

section

variable {size size' : Nat} {connections : List Connection}
  (hin : ∀ c ∈ connections, c.a.index < size ∧ c.b.index < size) (hle : size ≤ size')
  {s t : SignalId} {n : NetId}

include hin hle

/-- More signals leave the nets of the others alone. -/
theorem net?_extend (hs : s.index < size) :
    (ofConnections size' connections).net? s = (ofConnections size connections).net? s := by
  have hin' : ∀ c ∈ connections, c.a.index < size' ∧ c.b.index < size' := fun c hc =>
    (hin c hc).imp hle.trans_lt' hle.trans_lt'
  obtain ⟨hsound, -, hroot⟩ := merge_spec hin
  obtain ⟨-, -, hroot'⟩ := merge_spec hin'
  have hsame := ofRoots_congr hsound
    (fun i j => (hroot ⟨i⟩ ⟨j⟩).trans (hroot' ⟨i⟩ ⟨j⟩).symm) (List.range size)
  obtain ⟨k, rfl⟩ := Nat.exists_eq_add_of_le hle
  unfold ofConnections
  simp only
  rw [hsame, List.range_add, List.map_append]
  exact net?_ofRoots_append (by simpa using hs)

/-- An additional signal is alone in its net. -/
theorem eq_of_net?_extend (hs : size ≤ s.index)
    (hsn : (ofConnections size' connections).net? s = some n)
    (htn : (ofConnections size' connections).net? t = some n) : t = s := by
  have hin' : ∀ c ∈ connections, c.a.index < size' ∧ c.b.index < size' := fun c hc =>
    (hin c hc).imp hle.trans_lt' hle.trans_lt'
  have hconnected := (net?_eq_iff_connected hin' (lt_of_net? htn) (lt_of_net? hsn)).1
    (htn.trans hsn.symm)
  rcases hconnected.eq_or_lt hin with heq | ⟨-, hlt⟩
  · exact heq
  · omega

end

end Partition

/-! ## Conflicts -/

section

variable {signals signals' : SignalTable} {connections : List Connection} {x : Extraction}
  (hext : signals'.Extends signals)
  (hdeclared : ∀ s ∈ mentionedSignals connections x, s.index < signals.size)
  {n : NetId} {s : SignalId}

include hext hdeclared

theorem inNet_extend (hs : s.index < signals.size) :
    InNet signals' connections n s ↔ InNet signals connections n s := by
  unfold InNet
  rw [Partition.net?_extend (connection_lt_of_declared hdeclared) hext.size_le hs]

theorem InNet.eq_of_new {t : SignalId} (hs : signals.size ≤ s.index)
    (hsn : InNet signals' connections n s) (htn : InNet signals' connections n t) : t = s :=
  Partition.eq_of_net?_extend (connection_lt_of_declared hdeclared) hext.size_le hs hsn htn

/-- A net that is contested was contested before. -/
theorem Contested.of_extend (h : Contested signals' connections x n) :
    Contested signals connections x n := by
  have hwritten : ∀ {b s}, x.Writes b s → s.index < signals.size := fun ⟨_, haccess, hs⟩ =>
    hdeclared _ (mentioned_of_access haccess (.inr hs))
  have hold : ∀ {s}, s.index < signals.size → InNet signals' connections n s →
      InNet signals connections n s := fun hs => (inNet_extend hext hdeclared hs).1
  rcases h with ⟨b, s, b', s', hne, ⟨hb, hs⟩, hb', hs'⟩ | ⟨s, s', hne, ⟨hd, hs⟩, hd', hs'⟩
  · exact .inl ⟨b, s, b', s', hne, ⟨hb, hold (hwritten hb) hs⟩, hb', hold (hwritten hb') hs'⟩
  · -- a net with two members holds no new signal
    have hlt : s.index < signals.size := by
      by_contra hnew
      exact hne (InNet.eq_of_new hext hdeclared (Nat.le_of_not_lt hnew) hs hs').symm
    have hlt' : s'.index < signals.size := by
      by_contra hnew
      exact hne (InNet.eq_of_new hext hdeclared (Nat.le_of_not_lt hnew) hs' hs)
    have hdrives : ∀ {s}, s.index < signals.size → Drives signals' x s → Drives signals x s :=
      fun hs hd => hd.imp_right fun ⟨v, hv⟩ => ⟨v, (hext.isConst_iff hs).1 hv⟩
    exact .inr ⟨s, s', hne, ⟨hdrives hlt hd, hold hlt hs⟩, hdrives hlt' hd', hold hlt' hs'⟩

/-- An overlap in a net is one of before. -/
theorem Overlap.of_extend (hf : signals.Forest) {b b' : BlockId} {whole : SignalId}
    (h : Overlap signals' x b s b' whole) (hs : InNet signals' connections n s) :
    Overlap signals x b s b' whole ∧ InNet signals connections n s := by
  obtain ⟨access, haccess, hwrite⟩ := h.writes_part
  have hlt := hdeclared s (mentioned_of_access haccess (.inr hwrite))
  exact ⟨⟨h.writes_part, h.writes_whole, h.ne, (hf.partOf_extends hext hlt).1 h.partOf⟩,
    (inNet_extend hext hdeclared hlt).1 hs⟩

end

section

variable {signals signals' : SignalTable} {connections : List Connection} {x : Extraction}
  {nets nets' : NetMap}

/-- More declarations are no reason to refuse a design, unless undriven outputs are refused. -/
theorem exists_resolve_extend (h : Resolves signals connections x nets) (hf : signals.Forest)
    (hf' : signals'.Forest) (hext : signals'.Extends signals) (top : ComponentId) :
    ∃ nets', resolve signals' connections x ⟨false, top⟩ = .ok nets' := by
  refine exists_resolve_iff.2 ⟨fun s hs => hext.lt_size (h.declared s hs),
    Wiring.conflicts_eq_nil.2 fun n _ => ⟨?_, ?_⟩, fun hdeny => by cases hdeny⟩
  · rw [← Bool.not_eq_true, Wiring.contested_ofDesign]
    intro hcontested
    have hold := hcontested.of_extend hext h.declared
    obtain ⟨s, hs⟩ : ∃ s, InNet signals connections n s := by
      rcases hold with ⟨-, s, -, -, -, ⟨-, hs⟩, -⟩ | ⟨s, -, -, ⟨-, hs⟩, -⟩
      · exact ⟨s, hs⟩
      · exact ⟨s, hs⟩
    have hn := h.not_contested (h.index_lt_size ((h.net?_eq s).trans hs))
    rw [Wiring.contested_ofDesign.2 hold] at hn
    cases hn
  · by_contra hne
    obtain ⟨b, s, b', whole, hoverlap, hs⟩ := (Wiring.overlaps_ne_nil hf').1 hne
    obtain ⟨hold, hs⟩ := hoverlap.of_extend hext h.declared hf hs
    exact h.not_partOf hf hold.ne hold.writes_part hold.writes_whole hold.partOf

end

/-! ## The nets -/

namespace Resolves

variable {signals signals' : SignalTable} {connections : List Connection} {x : Extraction}
  {nets nets' : NetMap} (h : Resolves signals connections x nets)
  (h' : Resolves signals' connections x nets') (hext : signals'.Extends signals)
  {a b : SignalId} {n : NetId}

include h h' hext

theorem net?_extend (ha : a.index < signals.size) : nets'.net? a = nets.net? a := by
  rw [h.net?_eq, h'.net?_eq]
  exact Partition.net?_extend h.connection_lt hext.size_le ha

theorem eq_of_new (ha : signals.size ≤ a.index) (han : nets'.net? a = some n)
    (hbn : nets'.net? b = some n) : b = a := by
  rw [h'.net?_eq] at han hbn
  exact Partition.eq_of_net?_extend h.connection_lt hext.size_le ha han hbn

/-- The nets from before hold the signals from before. -/
theorem net?_extend_iff (hn : n.index < nets.size) :
    nets'.net? a = some n ↔ nets.net? a = some n := by
  constructor
  · intro ha
    obtain ⟨s, hs⟩ := h.canonical.lt_size.1 hn
    have hlt := h.lt_of_net? hs
    have hs' := (h.net?_extend h' hext hlt).trans hs
    by_cases hnew : a.index < signals.size
    · rwa [h.net?_extend h' hext hnew] at ha
    · -- a new signal would be alone in the net
      rw [h.eq_of_new h' hext (Nat.le_of_not_lt hnew) ha hs'] at hlt
      exact absurd hlt hnew
  · exact fun ha => (h.net?_extend h' hext (h.lt_of_net? ha)).trans ha

theorem members_extend (hn : n.index < nets.size) : nets'.members n = nets.members n := by
  refine eq_of_ascending (h'.canonical.members_ascend n) (h.canonical.members_ascend n)
    fun a => ?_
  rw [h.mem_members, h'.mem_members, h.net?_extend_iff h' hext hn]

theorem members_new (ha : signals.size ≤ a.index) (han : nets'.net? a = some n) :
    nets'.members n = [a] := by
  refine eq_of_ascending (h'.canonical.members_ascend n) (List.pairwise_singleton ..)
    fun b => ?_
  rw [h'.mem_members, List.mem_singleton]
  exact ⟨h.eq_of_new h' hext ha han, fun hb => hb ▸ han⟩

theorem size_extend : nets.size ≤ nets'.size := by
  by_contra hlt
  obtain ⟨s, hs⟩ := h.canonical.lt_size.1
    (show (⟨nets'.size⟩ : NetId).index < nets.size from Nat.lt_of_not_le hlt)
  have hs' := h'.index_lt_size ((h.net?_extend h' hext (h.lt_of_net? hs)).trans hs)
  exact Nat.lt_irrefl _ hs'

theorem writers_extend (n : NetId) : nets'.writers n = nets.writers n := by
  refine eq_of_ascending (h'.writers_ascend n) (h.writers_ascend n) fun b => ?_
  rw [h.mem_writers, h'.mem_writers]
  refine exists_congr fun access => and_congr_right fun haccess => exists_congr fun s => ?_
  exact and_congr_right fun hs => by rw [h.net?_extend h' hext (h.write_lt haccess hs)]

theorem touches_extend (hf : signals.Forest) {t : SignalId} (ht : t.index < signals.size)
    (hn : n.index < nets.size) :
    nets'.Touches signals' t n ↔ nets.Touches signals t n := by
  unfold NetMap.Touches
  rw [h.net?_extend h' hext ht]
  refine exists_congr fun m => and_congr_right fun hm => ?_
  simp only [h.net?_extend_iff h' hext hn, h.net?_extend_iff h' hext (h.index_lt_size hm)]
  refine exists_congr fun s => exists_congr fun s' => and_congr_right fun hs => ?_
  exact and_congr_right fun hs' =>
    hf.sharesStorage_extends hext (h.lt_of_net? hs) (h.lt_of_net? hs')

theorem readers_extend (hf : signals.Forest) (hf' : signals'.Forest) (hn : n.index < nets.size) :
    nets'.readers n = nets.readers n := by
  refine eq_of_ascending (h'.readers_ascend n) (h.readers_ascend n) fun b => ?_
  rw [h.mem_readers hf, h'.mem_readers hf']
  refine exists_congr fun access => and_congr_right fun haccess => exists_congr fun t => ?_
  exact and_congr_right fun ht => h.touches_extend h' hext hf (h.read_lt haccess ht) hn

/-- A constant that drives a net from before drove it before. -/
theorem driver_extend (hn : n.index < nets.size) {k : SignalId} {v : UInt64}
    (hdriver : nets'.driver n = some (.const k v)) : nets.driver n = some (.const k v) := by
  obtain ⟨hunwritten, hconst, hk⟩ := h'.driven.const.1 hdriver
  have hk' := (h.net?_extend_iff h' hext hn).1 hk
  refine h.driven.const.2 ⟨fun b t hwrite ht => hunwritten b t hwrite ?_,
    (hext.isConst_iff (h.lt_of_net? hk')).1 hconst, hk'⟩
  exact (h.net?_extend_iff h' hext hn).2 ht

/-- A new signal drives its net if it is a constant. -/
theorem driver_new (ha : signals.size ≤ a.index) (han : nets'.net? a = some n) {k : SignalId}
    {v : UInt64} : nets'.driver n = some (.const k v) ↔ k = a ∧ signals'.IsConst a v := by
  rw [h'.driven.const]
  constructor
  · rintro ⟨-, hconst, hk⟩
    obtain rfl := h.eq_of_new h' hext ha han hk
    exact ⟨rfl, hconst⟩
  · rintro ⟨rfl, hconst⟩
    refine ⟨fun b t ⟨access, haccess, ht⟩ htn => ?_, hconst, han⟩
    have hlt := h.write_lt haccess ht
    rw [h.eq_of_new h' hext ha han htn] at hlt
    omega

end Resolves

end Cyclewise
