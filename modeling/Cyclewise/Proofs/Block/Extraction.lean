import Cyclewise.Proofs.Block.Scan
import Cyclewise.Block.Extraction

/-!
# The access sets and the sites of an extraction

A successful extraction of blocks with different identifiers holds exactly these blocks, in order
(`keys_of_extract`), each with the access sets of its own analysis (`find?_of_extract`).  The sites
of a pair of signals are those of the dependencies that the analyses found
(`mem_sites_mergeAnalyses`).  So another order of the blocks gives an extraction that holds the same
(`Extraction.Alike`).
-/

namespace Cyclewise

variable {μ : Type}

namespace Extraction

/-- A block is analysed, and it writes a signal itself. -/
def Writes (x : Extraction) (b : BlockId) (s : SignalId) : Prop :=
  ∃ access, x.access? b = some access ∧ s ∈ access.writes

/-- What `mergeAnalyses` does with one block. -/
theorem analyzed_add (x : Extraction) (b : BlockId) (name : String) (a : BlockAnalysis) :
    (x.add b name a).analyzed = x.analyzed.insert b ⟨name, a.access⟩ := rfl

/-- Two extractions hold the same accesses and sites, in whatever order. -/
structure Alike (x x' : Extraction) : Prop where
  access?_eq : ∀ b, x'.access? b = x.access? b
  mem_sites : ∀ {r w site}, site ∈ x'.sites r w ↔ site ∈ x.sites r w

theorem Alike.symm {x x' : Extraction} (h : x.Alike x') : x'.Alike x :=
  ⟨fun b => (h.access?_eq b).symm, h.mem_sites.symm⟩

theorem mem_blocks {x : Extraction} {b : BlockId} {access : BlockAccess} :
    (b, access) ∈ x.blocks ↔ x.access? b = some access := by
  unfold blocks access?
  rw [List.mem_map, Option.map_eq_some_iff]
  constructor
  · rintro ⟨⟨b, a⟩, hmem, h⟩
    obtain ⟨rfl, rfl⟩ := Prod.mk.inj h
    exact ⟨a, OrderedMap.mem_entries_iff.1 hmem, rfl⟩
  · rintro ⟨a, ha, rfl⟩
    exact ⟨(b, a), OrderedMap.mem_entries_iff.2 ha, rfl⟩

theorem mem_keys_of_access? {x : Extraction} {b : BlockId} {access : BlockAccess}
    (h : x.access? b = some access) : b ∈ x.analyzed.keys := by
  obtain ⟨a, ha, -⟩ := Option.map_eq_some_iff.1 h
  exact OrderedMap.mem_keys_iff.2 ⟨a, ha⟩

theorem mem_keys_iff_access? {x : Extraction} {b : BlockId} :
    b ∈ x.analyzed.keys ↔ (x.access? b).isSome := by
  unfold access?
  rw [OrderedMap.mem_keys_iff, Option.isSome_map, Option.isSome_iff_exists]

theorem Alike.mem_keys {x x' : Extraction} (h : x.Alike x') {b : BlockId} :
    b ∈ x'.analyzed.keys ↔ b ∈ x.analyzed.keys := by
  rw [mem_keys_iff_access?, mem_keys_iff_access?, h.access?_eq]

/-! ## Sites -/

theorem mem_findD_addDependency {b : BlockId}
    {deps : OrderedMap (SignalId × SignalId) (List DepSite)} {d : Dependency}
    {k : SignalId × SignalId} {site : DepSite} :
    site ∈ (addDependency b deps d).findD k [] ↔
      site ∈ deps.findD k [] ∨ k = (d.read, d.written) ∧ site = ⟨b, d.span⟩ := by
  unfold addDependency
  rw [OrderedMap.findD_modify]
  by_cases hk : k = (d.read, d.written)
  · subst hk
    rw [if_pos rfl]
    split
    · next hknown =>
      refine ⟨.inl, fun h => h.elim id fun hown => ?_⟩
      rwa [hown.2]
    · simp
  · rw [if_neg hk]
    simp [hk]

theorem mem_findD_foldl_addDependency {b : BlockId} {found : List Dependency}
    {deps : OrderedMap (SignalId × SignalId) (List DepSite)} {r w : SignalId} {site : DepSite} :
    site ∈ (found.foldl (addDependency b) deps).findD (r, w) [] ↔
      site ∈ deps.findD (r, w) [] ∨ site.block = b ∧ ⟨r, w, site.span⟩ ∈ found := by
  induction found generalizing deps with
  | nil => simp
  | cons d found ih =>
    have hsame : ((r, w) = (d.read, d.written) ∧ site = ⟨b, d.span⟩) ↔
        site.block = b ∧ (⟨r, w, site.span⟩ : Dependency) = d := by
      obtain ⟨c, span⟩ := site
      obtain ⟨r', w', span'⟩ := d
      simp only [Prod.mk.injEq, DepSite.mk.injEq, Dependency.mk.injEq]
      rw [and_left_comm, and_assoc]
    rw [List.foldl_cons, ih, mem_findD_addDependency, hsame, List.mem_cons, or_assoc, and_or_left]

theorem mem_sites_add {x : Extraction} {b : BlockId} {name : String} {a : BlockAnalysis}
    {r w : SignalId} {site : DepSite} :
    site ∈ (x.add b name a).sites r w ↔
      site ∈ x.sites r w ∨ site.block = b ∧ ⟨r, w, site.span⟩ ∈ a.dependencies :=
  mem_findD_foldl_addDependency

end Extraction

/-! ## Merging -/

theorem eraseDups_of_nodup {α : Type} [BEq α] [LawfulBEq α] {xs : List α} (h : xs.Nodup) :
    xs.eraseDups = xs := by
  induction xs with
  | nil => rfl
  | cons a rest ih =>
    obtain ⟨ha, hrest⟩ := List.nodup_cons.1 h
    have hfilter : rest.filter (fun b => !b == a) = rest := by
      refine List.filter_eq_self.2 fun b hb => ?_
      have hne : b ≠ a := fun heq => ha (heq ▸ hb)
      simp [hne]
    rw [List.eraseDups_cons, hfilter, ih hrest]

section

variable {blocks : List (BlockId × UpdateBlock μ)}

/-- One step of `mergeAnalyses`. -/
private def merged (x : Extraction) (p : BlockId × UpdateBlock μ) : Extraction :=
  match p.2.analyze with
  | .ok analysis => x.add p.1 p.2.name analysis
  | .error _ => x

private theorem find?_foldl_merged_of_not_mem (x : Extraction) {b : BlockId}
    (h : b ∉ blocks.map Prod.fst) :
    (blocks.foldl merged x).analyzed.find? b = x.analyzed.find? b := by
  induction blocks generalizing x with
  | nil => rfl
  | cons p rest ih =>
    rw [List.map_cons, List.mem_cons, not_or] at h
    rw [List.foldl_cons, ih _ h.2]
    unfold merged
    split
    · rw [Extraction.analyzed_add, OrderedMap.find?_insert, if_neg h.1]
    · rfl

private theorem find?_foldl_merged (x : Extraction) (hnodup : (blocks.map Prod.fst).Nodup)
    {b : BlockId} {block : UpdateBlock μ} {a : BlockAnalysis} (hmem : (b, block) ∈ blocks)
    (ha : block.analyze = .ok a) :
    (blocks.foldl merged x).analyzed.find? b = some ⟨block.name, a.access⟩ := by
  induction blocks generalizing x with
  | nil => cases hmem
  | cons p rest ih =>
    rw [List.map_cons, List.nodup_cons] at hnodup
    rw [List.foldl_cons]
    rcases List.mem_cons.1 hmem with rfl | hmem
    · rw [find?_foldl_merged_of_not_mem _ hnodup.1, merged]
      simp only [ha]
      rw [Extraction.analyzed_add, OrderedMap.find?_insert, if_pos rfl]
    · exact ih _ hnodup.2 hmem

/-- New identifiers are entered in the order in which they first occur. -/
private theorem keys_foldl_merged (x : Extraction)
    (hall : ∀ p ∈ blocks, ∃ a, p.2.analyze = .ok a) :
    (blocks.foldl merged x).analyzed.keys = x.analyzed.keys ++
      ((blocks.map Prod.fst).filter (· ∉ x.analyzed.keys)).eraseDups := by
  induction blocks generalizing x with
  | nil => simp
  | cons p rest ih =>
    obtain ⟨a, ha⟩ := hall p List.mem_cons_self
    have hstep : (merged x p).analyzed.keys =
        if p.1 ∈ x.analyzed.keys then x.analyzed.keys else x.analyzed.keys ++ [p.1] := by
      unfold merged
      simp only [ha]
      rw [Extraction.analyzed_add, OrderedMap.keys_insert]
    rw [List.foldl_cons, ih _ fun q hq => hall q (List.mem_cons_of_mem p hq), hstep, List.map_cons]
    by_cases hp : p.1 ∈ x.analyzed.keys
    · rw [if_pos hp, List.filter_cons_of_neg (by simpa using hp)]
    · rw [if_neg hp, List.filter_cons_of_pos (by simpa using hp), List.eraseDups_cons,
        List.filter_filter, List.append_assoc, List.singleton_append]
      congr 3
      refine List.filter_congr fun b _ => ?_
      by_cases hb : b = p.1 <;> simp [hb]

private theorem mem_sites_foldl_merged {x : Extraction} {r w : SignalId} {site : DepSite} :
    site ∈ (blocks.foldl merged x).sites r w ↔ site ∈ x.sites r w ∨ ∃ block a,
      (site.block, block) ∈ blocks ∧ block.analyze = .ok a ∧
        ⟨r, w, site.span⟩ ∈ a.dependencies := by
  induction blocks generalizing x with
  | nil => simp
  | cons p rest ih =>
    obtain ⟨b, block⟩ := p
    have hstep : site ∈ (merged x (b, block)).sites r w ↔ site ∈ x.sites r w ∨
        site.block = b ∧ ∃ a, block.analyze = .ok a ∧ ⟨r, w, site.span⟩ ∈ a.dependencies := by
      unfold merged
      cases ha : block.analyze with
      | ok a => simp [Extraction.mem_sites_add]
      | error loops => simp
    rw [List.foldl_cons, ih, hstep, or_assoc]
    refine or_congr_right ⟨?_, ?_⟩
    · rintro (⟨rfl, a, ha, hdep⟩ | ⟨block', a, hmem, ha, hdep⟩)
      · exact ⟨block, a, List.mem_cons_self, ha, hdep⟩
      · exact ⟨block', a, List.mem_cons_of_mem _ hmem, ha, hdep⟩
    · rintro ⟨block', a, hmem, ha, hdep⟩
      rcases List.mem_cons.1 hmem with heq | hmem
      · obtain ⟨hblock, rfl⟩ := Prod.mk.inj heq
        exact .inl ⟨hblock, a, ha, hdep⟩
      · exact .inr ⟨block', a, hmem, ha, hdep⟩

/-- The sites are those of the dependencies that the analyses found. -/
theorem mem_sites_mergeAnalyses {r w : SignalId} {site : DepSite} :
    site ∈ (mergeAnalyses blocks).sites r w ↔ ∃ block a, (site.block, block) ∈ blocks ∧
      block.analyze = .ok a ∧ ⟨r, w, site.span⟩ ∈ a.dependencies := by
  have hnone : ¬ site ∈ Extraction.empty.sites r w := List.not_mem_nil
  exact mem_sites_foldl_merged.trans (or_iff_right hnone)

/-- Each identifier is entered once. -/
theorem keys_mergeAnalyses (hall : ∀ p ∈ blocks, ∃ a, p.2.analyze = .ok a) :
    (mergeAnalyses blocks).analyzed.keys = (blocks.map Prod.fst).eraseDups := by
  have hkeys := keys_foldl_merged Extraction.empty hall
  have hfilter : (blocks.map Prod.fst).filter (· ∉ Extraction.empty.analyzed.keys) =
      blocks.map Prod.fst := List.filter_eq_self.2 fun b _ => decide_eq_true List.not_mem_nil
  rw [hfilter] at hkeys
  exact hkeys

/-- Blocks without loops can be extracted. -/
theorem extract_of_analyzed (hall : ∀ p ∈ blocks, ∃ a, p.2.analyze = .ok a) :
    extract blocks = .ok (mergeAnalyses blocks) := by
  have hloops : loopsOf blocks = [] := List.flatMap_eq_nil_iff.2 fun p hp => by
    obtain ⟨a, ha⟩ := hall p hp
    simp only [ha]
  unfold extract
  simp only [hloops]
  rfl

/-- In a successful extraction every block is analysed. -/
theorem extract_eq_ok {x : Extraction} (hx : extract blocks = .ok x) :
    x = mergeAnalyses blocks ∧ ∀ p ∈ blocks, ∃ a, p.2.analyze = .ok a := by
  unfold extract at hx
  simp only at hx
  split at hx
  · next hloops =>
    refine ⟨(Except.ok.inj hx).symm, fun p hp => ?_⟩
    rw [List.isEmpty_iff] at hloops
    cases ha : p.2.analyze with
    | ok a => exact ⟨a, rfl⟩
    | error sites =>
      have hsites : sites = [] := by
        have h := List.flatMap_eq_nil_iff.1 hloops p hp
        simpa [ha] using h
      -- an analysis fails with at least one loop
      unfold UpdateBlock.analyze at ha
      simp only at ha
      split at ha
      · cases ha
      · next hne =>
        rw [Except.error.inj ha, hsites] at hne
        exact absurd rfl hne
  · cases hx

variable {x : Extraction} (hx : extract blocks = .ok x) (hnodup : (blocks.map Prod.fst).Nodup)

include hx hnodup

theorem keys_of_extract : x.analyzed.keys = blocks.map Prod.fst := by
  obtain ⟨rfl, hall⟩ := extract_eq_ok hx
  rw [keys_mergeAnalyses hall, eraseDups_of_nodup hnodup]

theorem find?_of_extract {b : BlockId} {block : UpdateBlock μ} {a : BlockAnalysis}
    (hmem : (b, block) ∈ blocks) (ha : block.analyze = .ok a) :
    x.analyzed.find? b = some ⟨block.name, a.access⟩ := by
  obtain ⟨rfl, -⟩ := extract_eq_ok hx
  exact find?_foldl_merged Extraction.empty hnodup hmem ha

/-- A site stands in a block that reads and writes the two signals. -/
theorem access_of_site {r w : SignalId} {site : DepSite} (hsite : site ∈ x.sites r w) :
    ∃ access, x.access? site.block = some access ∧ r ∈ access.reads ∧ w ∈ access.writes := by
  obtain ⟨rfl, -⟩ := extract_eq_ok hx
  obtain ⟨block, a, hblock, ha, hdep⟩ := mem_sites_mergeAnalyses.1 hsite
  refine ⟨a.access, ?_, UpdateBlock.grounded ha _ hdep⟩
  unfold Extraction.access?
  rw [find?_of_extract hx hnodup hblock ha, Option.map_some]

/-- Another order of the blocks gives the same accesses and sites. -/
theorem exists_extract_of_perm {blocks' : List (BlockId × UpdateBlock μ)}
    (hperm : blocks'.Perm blocks) : ∃ x', extract blocks' = .ok x' ∧ x.Alike x' := by
  obtain ⟨rfl, hall⟩ := extract_eq_ok hx
  have hx' : extract blocks' = .ok (mergeAnalyses blocks') :=
    extract_of_analyzed fun p hp => hall p (hperm.mem_iff.1 hp)
  have hnodup' : (blocks'.map Prod.fst).Nodup := (hperm.map Prod.fst).nodup_iff.2 hnodup
  refine ⟨_, hx', fun b => ?_, ?_⟩
  · by_cases hb : b ∈ blocks.map Prod.fst
    · obtain ⟨⟨b, block⟩, hmem, rfl⟩ := List.mem_map.1 hb
      obtain ⟨a, ha⟩ := hall _ hmem
      unfold Extraction.access?
      rw [find?_of_extract hx hnodup hmem ha,
        find?_of_extract hx' hnodup' (hperm.mem_iff.2 hmem) ha]
    · have hnone : ∀ {y : Extraction}, b ∉ y.analyzed.keys → y.access? b = none := by
        intro y hy
        rwa [Extraction.mem_keys_iff_access?, Option.not_isSome_iff_eq_none] at hy
      rw [hnone, hnone]
      · rwa [keys_of_extract hx hnodup]
      · rw [keys_of_extract hx' hnodup', (hperm.map Prod.fst).mem_iff]
        exact hb
  · intro r w site
    rw [mem_sites_mergeAnalyses, mem_sites_mergeAnalyses]
    simp only [hperm.mem_iff]

end

end Cyclewise
