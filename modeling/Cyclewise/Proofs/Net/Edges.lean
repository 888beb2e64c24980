import Cyclewise.Proofs.Net.Resolution
import Cyclewise.Schedule.Edge

/-!
# Dependencies between nets

A dependency of two signals becomes one of their nets, unless the two are in one net.  So the edges
from one net to another one hold the sites of all pairs of their members
(`Resolves.exists_edge_iff`), and the sites where a block writes or reads a net are those of its
dependencies into the net and out of it (`Resolves.mem_writeSites`, `Resolves.mem_readSites`).  No
two edges have the same ends (`Resolves.nodup_ends`), and none lists a site twice
(`Resolves.nodup_sites`).
-/

namespace Cyclewise

/-- A loop finds what its rounds find. -/
theorem foldl_finds {σ α : Type} (holds : σ → Prop) {step : σ → α → σ} {found : α → Prop}
    {xs : List α} {s : σ} (h : ∀ s, ∀ x ∈ xs, holds (step s x) ↔ holds s ∨ found x) :
    holds (xs.foldl step s) ↔ holds s ∨ ∃ x ∈ xs, found x := by
  induction xs generalizing s with
  | nil => simp
  | cons x xs ih =>
    rw [List.foldl_cons, ih fun s y hy => h s y (List.mem_cons_of_mem x hy),
      h s x List.mem_cons_self, or_assoc]
    simp only [List.mem_cons, exists_eq_or_imp]

/-- Adding what is missing adds everything. -/
theorem mem_foldl_missing {α : Type} [DecidableEq α] {xs known : List α} {a : α} :
    a ∈ xs.foldl (fun known x => if x ∈ known then known else known ++ [x]) known ↔
      a ∈ known ∨ a ∈ xs := by
  have hstep : ∀ known : List α, ∀ x ∈ xs,
      a ∈ (if x ∈ known then known else known ++ [x]) ↔ a ∈ known ∨ a = x := by
    intro known x _
    split
    · next hx => exact ⟨.inl, fun h => h.elim id fun hax => hax ▸ hx⟩
    · simp
  refine (foldl_finds (a ∈ ·) hstep).trans (or_congr Iff.rfl ?_)
  simp

/-- Adding what is missing repeats nothing. -/
theorem nodup_foldl_missing {α : Type} [DecidableEq α] {xs known : List α} (h : known.Nodup) :
    (xs.foldl (fun known x => if x ∈ known then known else known ++ [x]) known).Nodup := by
  induction xs generalizing known with
  | nil => exact h
  | cons x xs ih =>
    rw [List.foldl_cons]
    refine ih ?_
    split
    · exact h
    · next hx =>
      refine List.nodup_append.2 ⟨h, List.nodup_singleton x, fun a ha b hb hab => hx ?_⟩
      rwa [hab, List.mem_singleton.1 hb] at ha

namespace NetEdge

/-- The nets that an edge leads from and to. -/
def ends (e : NetEdge) : NetId × NetId := (e.source, e.target)

end NetEdge

namespace Partition

variable {p : Partition} {n m : NetId} {site : DepSite}

/-- What one pair of signals adds. -/
theorem mem_findD_liftSites {edges : OrderedMap (NetId × NetId) (List DepSite)}
    {dep : (SignalId × SignalId) × List DepSite} :
    site ∈ (p.liftSites edges dep).findD (n, m) [] ↔ site ∈ edges.findD (n, m) [] ∨
      n ≠ m ∧ p.net? dep.1.1 = some n ∧ p.net? dep.1.2 = some m ∧ site ∈ dep.2 := by
  unfold liftSites
  split
  · next source target hsource htarget =>
    rw [hsource, htarget]
    simp only [Option.some.injEq]
    split
    · next heq =>
      refine ⟨.inl, fun h => h.elim id ?_⟩
      rintro ⟨hne, rfl, rfl, -⟩
      exact absurd heq hne
    · next hne =>
      rw [OrderedMap.findD_modify]
      by_cases hk : (n, m) = (source, target)
      · obtain ⟨rfl, rfl⟩ := Prod.mk.inj hk
        rw [if_pos rfl, mem_foldl_missing]
        simp [hne]
      · rw [if_neg hk]
        refine ⟨.inl, fun h => h.elim id ?_⟩
        rintro ⟨-, rfl, rfl, -⟩
        exact absurd rfl hk
  · next hnone =>
    refine ⟨.inl, fun h => h.elim id ?_⟩
    rintro ⟨-, hsource, htarget, -⟩
    exact absurd htarget (hnone n m hsource)

theorem mem_findD_foldl_liftSites {entries : List ((SignalId × SignalId) × List DepSite)}
    {edges : OrderedMap (NetId × NetId) (List DepSite)} :
    site ∈ (entries.foldl p.liftSites edges).findD (n, m) [] ↔ site ∈ edges.findD (n, m) [] ∨
      ∃ dep ∈ entries, n ≠ m ∧ p.net? dep.1.1 = some n ∧ p.net? dep.1.2 = some m ∧
        site ∈ dep.2 :=
  foldl_finds
    (fun edges : OrderedMap (NetId × NetId) (List DepSite) => site ∈ edges.findD (n, m) [])
    fun _ _ _ => mem_findD_liftSites

theorem nodup_findD_liftSites {edges : OrderedMap (NetId × NetId) (List DepSite)}
    {dep : (SignalId × SignalId) × List DepSite} (h : ∀ k, (edges.findD k []).Nodup)
    (k : NetId × NetId) : ((p.liftSites edges dep).findD k []).Nodup := by
  unfold liftSites
  split
  · split
    · exact h k
    · rw [OrderedMap.findD_modify]
      split
      · exact nodup_foldl_missing (h _)
      · exact h k
  · exact h k

theorem nodup_findD_foldl_liftSites (entries : List ((SignalId × SignalId) × List DepSite))
    {edges : OrderedMap (NetId × NetId) (List DepSite)} (h : ∀ k, (edges.findD k []).Nodup)
    (k : NetId × NetId) : ((entries.foldl p.liftSites edges).findD k []).Nodup := by
  induction entries generalizing edges with
  | nil => exact h k
  | cons dep entries ih => exact ih (nodup_findD_liftSites h)

/-- Between two nets there is one edge at most. -/
theorem nodup_ends_netEdges (deps : OrderedMap (SignalId × SignalId) (List DepSite)) :
    ((p.netEdges deps).map NetEdge.ends).Nodup := by
  unfold netEdges
  rw [List.map_map]
  exact (deps.entries.foldl p.liftSites ∅).nodup_keys

/-- An edge lists no site twice. -/
theorem nodup_sites_netEdges {deps : OrderedMap (SignalId × SignalId) (List DepSite)}
    {e : NetEdge} (he : e ∈ p.netEdges deps) : e.sites.Nodup := by
  obtain ⟨⟨k, sites⟩, hmem, rfl⟩ := List.mem_map.1 he
  have hempty : ∀ k, ((∅ : OrderedMap (NetId × NetId) (List DepSite)).findD k []).Nodup :=
    fun _ => List.nodup_nil
  have hfold : ((deps.entries.foldl p.liftSites ∅).findD k []).Nodup :=
    nodup_findD_foldl_liftSites deps.entries hempty k
  rwa [OrderedMap.findD, OrderedMap.mem_entries_iff.1 hmem] at hfold

/-- The sites between two nets are those of the pairs of their signals. -/
theorem exists_netEdge_iff {deps : OrderedMap (SignalId × SignalId) (List DepSite)} :
    (∃ e ∈ p.netEdges deps, e.source = n ∧ e.target = m ∧ site ∈ e.sites) ↔
      n ≠ m ∧ ∃ r w, p.net? r = some n ∧ p.net? w = some m ∧ site ∈ deps.findD (r, w) [] := by
  have hedge : (∃ e ∈ p.netEdges deps, e.source = n ∧ e.target = m ∧ site ∈ e.sites) ↔
      site ∈ (deps.entries.foldl p.liftSites ∅).findD (n, m) [] := by
    unfold netEdges
    rw [OrderedMap.mem_findD_iff]
    constructor
    · rintro ⟨e, he, rfl, rfl, hsite⟩
      obtain ⟨⟨⟨source, target⟩, sites⟩, hmem, rfl⟩ := List.mem_map.1 he
      exact ⟨sites, hmem, hsite⟩
    · rintro ⟨sites, hmem, hsite⟩
      exact ⟨⟨n, m, sites⟩, List.mem_map.2 ⟨_, hmem, rfl⟩, rfl, rfl, hsite⟩
  have hnone : ¬ site ∈ (∅ : OrderedMap (NetId × NetId) (List DepSite)).findD (n, m) [] :=
    List.not_mem_nil
  rw [hedge, mem_findD_foldl_liftSites, or_iff_right hnone]
  simp only [OrderedMap.mem_findD_iff]
  constructor
  · rintro ⟨⟨⟨r, w⟩, sites⟩, hmem, hne, hr, hw, hsite⟩
    exact ⟨hne, r, w, hr, hw, sites, hmem, hsite⟩
  · rintro ⟨hne, r, w, hr, hw, sites, hmem, hsite⟩
    exact ⟨((r, w), sites), hmem, hne, hr, hw, hsite⟩

end Partition

/-! ## The edges of a resolved design -/

namespace Resolves

variable {signals : SignalTable} {connections : List Connection} {x : Extraction} {nets : NetMap}
  (h : Resolves signals connections x nets) {n m : NetId} {b : BlockId} {site : DepSite}

include h

theorem edges_eq :
    nets.edges = (Partition.ofConnections signals.size connections).netEdges x.deps := by
  rw [h.map_eq]
  rfl

theorem nodup_ends : (nets.edges.map NetEdge.ends).Nodup := by
  rw [h.edges_eq]
  exact Partition.nodup_ends_netEdges x.deps

theorem nodup_sites {e : NetEdge} (he : e ∈ nets.edges) : e.sites.Nodup := by
  rw [h.edges_eq] at he
  exact Partition.nodup_sites_netEdges he

theorem exists_edge_iff :
    (∃ e ∈ nets.edges, e.source = n ∧ e.target = m ∧ site ∈ e.sites) ↔
      n ≠ m ∧ ∃ r w, nets.net? r = some n ∧ nets.net? w = some m ∧ site ∈ x.sites r w := by
  rw [h.edges_eq, Partition.exists_netEdge_iff]
  simp only [h.net?_eq]
  rfl

theorem mem_writeSites : site ∈ nets.writeSites b n ↔ site.block = b ∧
    ∃ m, m ≠ n ∧ ∃ r w, nets.net? r = some m ∧ nets.net? w = some n ∧ site ∈ x.sites r w := by
  simp only [← h.exists_edge_iff]
  unfold NetMap.writeSites
  simp only [List.mem_filter, List.mem_flatMap, decide_eq_true_eq]
  constructor
  · rintro ⟨⟨e, ⟨he, rfl⟩, hsite⟩, hblock⟩
    exact ⟨hblock, e.source, e, he, rfl, rfl, hsite⟩
  · rintro ⟨hblock, m, e, he, -, htarget, hsite⟩
    exact ⟨⟨e, ⟨he, htarget⟩, hsite⟩, hblock⟩

theorem mem_readSites : site ∈ nets.readSites b n ↔ site.block = b ∧
    ∃ m, n ≠ m ∧ ∃ r w, nets.net? r = some n ∧ nets.net? w = some m ∧ site ∈ x.sites r w := by
  simp only [← h.exists_edge_iff]
  unfold NetMap.readSites
  simp only [List.mem_filter, List.mem_flatMap, decide_eq_true_eq]
  constructor
  · rintro ⟨⟨e, ⟨he, rfl⟩, hsite⟩, hblock⟩
    exact ⟨hblock, e.target, e, he, rfl, rfl, hsite⟩
  · rintro ⟨hblock, m, e, he, hsource, -, hsite⟩
    exact ⟨⟨e, ⟨he, hsource⟩, hsite⟩, hblock⟩

end Resolves

end Cyclewise
