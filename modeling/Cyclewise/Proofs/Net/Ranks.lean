import Cyclewise.Proofs.Net.Classes

/-!
# Ranks of disjoint sets

A root of rank `k` stands for at least `2 ^ k` elements (`Weighted`), although no number of elements
is kept anywhere.  Finding redirects links and changes neither ranks nor the set of any element
(`Weighted.sameRoots`), and hanging a root under another one puts their sets together, which pays
for a rank that grows (`Weighted.merges`).  So a rank is less than the number of binary digits of
the number of elements, and since ranks grow with each link on a way up, there are no more links on
it than that (`ranks_bounded`).
-/

namespace Cyclewise

namespace DisjointSets

variable {d d' : DisjointSets}

/-! ## The links on a way -/

/-- The way up from an element ends at a root after a number of links. -/
inductive LeadsIn (parent : Array Nat) : Nat → Nat → Nat → Prop where
  | root {r} (h : parentOf parent r = r) : LeadsIn parent 0 r r
  | link {k x r} (h : parentOf parent x ≠ x) (up : LeadsIn parent k (parentOf parent x) r) :
      LeadsIn parent (k + 1) x r

theorem Leads.exists_leadsIn {parent : Array Nat} {x r : Nat} (h : Leads parent x r) :
    ∃ k, LeadsIn parent k x r := by
  induction h with
  | root h => exact ⟨0, .root h⟩
  | link h _ ih =>
    obtain ⟨k, hk⟩ := ih
    exact ⟨k + 1, .link h hk⟩

/-- With every link the rank grows by one at least. -/
theorem Sound.rank_add_le (hd : d.Sound) {k x r : Nat} (h : LeadsIn d.parent k x r) :
    d.rank.getD x 0 + k ≤ d.rank.getD r 0 := by
  induction h with
  | root => exact Nat.le_refl _
  | link hx _ ih =>
    have := hd.rank_lt _ hx
    omega

/-! ## The elements of a root -/

/-- The elements below a root, itself included. -/
def setOf (d : DisjointSets) (r : Nat) : Finset Nat :=
  (Finset.range d.size).filter fun x => d.root x = r

theorem mem_setOf {x r : Nat} : x ∈ d.setOf r ↔ x < d.size ∧ d.root x = r := by
  unfold setOf
  rw [Finset.mem_filter, Finset.mem_range]

/-- In a sound forest, a root of rank `k` stands for `2 ^ k` elements at least. -/
structure Weighted (d : DisjointSets) : Prop where
  sound : d.Sound
  pow_rank_le : ∀ r < d.size, d.root r = r → 2 ^ d.rank.getD r 0 ≤ (d.setOf r).card

namespace Weighted

variable (hd : d.Weighted)

include hd

theorem sameRoots (h : d.SameRoots d') : d'.Weighted := by
  refine ⟨h.sound, fun r hr hroot => ?_⟩
  have hset : d'.setOf r = d.setOf r := by
    ext x
    rw [mem_setOf, mem_setOf, h.size_eq, h.root_eq]
  rw [h.size_eq] at hr
  rw [h.root_eq] at hroot
  rw [hset, h.rank_eq]
  exact hd.pow_rank_le r hr hroot

theorem merges {a b : Nat} (h : d.Merges d' a b) (ha : d.root a = a) (hb : d.root b = b)
    (hab : a ≠ b) (hlt : b < d.size) : d'.Weighted := by
  refine ⟨h.sound, fun r hr hroot => ?_⟩
  rw [h.size_eq] at hr
  rw [h.root_eq] at hroot
  -- the lower root is no root any more, so `r` was one before
  have hne : d.root r ≠ b := by
    intro hrb
    rw [if_pos hrb] at hroot
    rw [← hroot, ha] at hrb
    exact hab hrb
  rw [if_neg hne] at hroot
  by_cases hra : r = a
  · subst hra
    have hset : d'.setOf r = d.setOf r ∪ d.setOf b := by
      ext x
      rw [Finset.mem_union, mem_setOf, mem_setOf, mem_setOf, h.size_eq, h.root_eq, ← and_or_left]
      refine and_congr_right fun _ => ?_
      by_cases hx : d.root x = b
      · rw [if_pos hx]
        exact iff_of_true rfl (.inr hx)
      · rw [if_neg hx, or_iff_left hx]
    have hapart : Disjoint (d.setOf r) (d.setOf b) := by
      refine Finset.disjoint_left.2 fun x hx hx' => hab ?_
      exact (mem_setOf.1 hx).2.symm.trans (mem_setOf.1 hx').2
    calc 2 ^ d'.rank.getD r 0 ≤ 2 ^ d.rank.getD r 0 + 2 ^ d.rank.getD b 0 := h.pow_rank_le
      _ ≤ (d.setOf r).card + (d.setOf b).card :=
        Nat.add_le_add (hd.pow_rank_le r hr ha) (hd.pow_rank_le b hlt hb)
      _ = (d'.setOf r).card := by rw [hset, Finset.card_union_of_disjoint hapart]
  · have hset : d'.setOf r = d.setOf r := by
      ext x
      rw [mem_setOf, mem_setOf, h.size_eq, h.root_eq]
      refine and_congr_right fun _ => ?_
      by_cases hx : d.root x = b
      · rw [if_pos hx, hx]
        exact iff_of_false (Ne.symm hra) fun hbr => hne (hroot.trans hbr.symm)
      · rw [if_neg hx]
    rw [hset, h.rank_eq r hra]
    exact hd.pow_rank_le r hr hroot

theorem union {a b : Nat} (ha : a < d.size) (hb : b < d.size) : (d.union a b).2.Weighted := by
  obtain ⟨d', hfound, ⟨-, h⟩ | ⟨hne, h | h⟩⟩ := hd.sound.union_cases ha hb
  · rw [h]
    exact hd.sameRoots hfound
  all_goals
    have hroot : ∀ x, d'.root (d.root x) = d.root x := fun x => by
      rw [hfound.root_eq, hd.sound.root_root]
    have hlt : ∀ {x}, x < d.size → d.root x < d'.size := fun hx => by
      rw [hfound.size_eq]
      exact hd.sound.root_lt hx
  · exact (hd.sameRoots hfound).merges h (hroot a) (hroot b) hne (hlt hb)
  · exact (hd.sameRoots hfound).merges h (hroot b) (hroot a) (Ne.symm hne) (hlt ha)

/-! ## Calls -/

theorem perform? {c : Call} (hc : c.Within d.size) (h : d.perform? c = some d') : d'.Weighted := by
  cases c with
  | find x =>
    rw [DisjointSets.perform?, find?_of_lt hc] at h
    obtain rfl := Option.some.inj h
    exact hd.sameRoots (hd.sound.sameRoots_find hc).2
  | union a b =>
    rw [DisjointSets.perform?, union?_of_lt hc.1 hc.2] at h
    obtain rfl := Option.some.inj h
    exact hd.union hc.1 hc.2
  | same a b =>
    rw [DisjointSets.perform?, same?_of_lt hc.1 hc.2] at h
    obtain rfl := Option.some.inj h
    exact hd.sameRoots (hd.sound.sameRoots_same hc.1 hc.2)

theorem performAll? {calls : List Call} (hcalls : ∀ c ∈ calls, c.Within d.size) :
    ∃ d', d.performAll? calls = some d' ∧ d'.Weighted ∧ d'.size = d.size := by
  induction calls generalizing d with
  | nil => exact ⟨d, rfl, hd, rfl⟩
  | cons c calls ih =>
    have hc := hcalls c List.mem_cons_self
    obtain ⟨d', hd', -, hsize, -⟩ := hd.sound.perform? hc
    obtain ⟨d'', hd'', hweighted, hsize'⟩ := ih (hd.perform? hc hd')
      fun c' hc' => hsize.symm ▸ hcalls c' (List.mem_cons_of_mem c hc')
    refine ⟨d'', ?_, hweighted, hsize'.trans hsize⟩
    unfold DisjointSets.performAll? at hd'' ⊢
    rw [List.foldlM_cons, hd']
    exact hd''

/-! ## Bounds -/

/-- The rank of a root, and with it every rank, is paid for by elements. -/
theorem rank_lt {w x : Nat} (hw : d.size < 2 ^ w) (hx : x < d.size) : d.rank.getD x 0 < w := by
  obtain ⟨k, hk⟩ := (hd.sound.leads_root x).exists_leadsIn
  have hle := hd.sound.rank_add_le hk
  have hpay := hd.pow_rank_le _ (hd.sound.root_lt hx) (hd.sound.root_root x)
  have hcard : (d.setOf (d.root x)).card ≤ d.size := by
    have h := Finset.card_filter_le (Finset.range d.size) fun y => d.root y = d.root x
    rwa [Finset.card_range] at h
  have hpow : 2 ^ d.rank.getD (d.root x) 0 < 2 ^ w := by omega
  have := (Nat.pow_lt_pow_iff_right (by omega)).1 hpow
  omega

theorem leadsIn_lt {w k x r : Nat} (hw : d.size < 2 ^ w) (hx : x < d.size)
    (h : LeadsIn d.parent k x r) : k < w := by
  have hle := hd.sound.rank_add_le h
  obtain rfl : d.root x = r := by
    refine hd.sound.root_eq_iff.2 ?_
    clear hle
    induction h with
    | root h => exact .root h
    | link h _ ih => exact .link h (ih (hd.sound.parent_lt _ hx))
  have := hd.rank_lt hw (hd.sound.root_lt hx)
  omega

end Weighted

theorem weighted_singletons (n : Nat) : (singletons n).Weighted := by
  refine ⟨sound_singletons n, fun r hr hroot => ?_⟩
  have hrank : (singletons n).rank.getD r 0 = 0 := by
    rw [Array.getD_eq_getD_getElem?, singletons, Array.getElem?_replicate]
    split <;> rfl
  rw [hrank, Nat.pow_zero]
  exact Finset.card_pos.2 ⟨r, mem_setOf.2 ⟨hr, hroot⟩⟩

/-- **Ranks.**  Any calls of elements are answered.  After them the rank grows along each link, and
`2 ^ k` elements at least are below a root of rank `k`.  So with fewer than `2 ^ 32` elements all
ranks fit into a byte, and `find` follows no more than 32 links to the root that it gives. -/
theorem ranks_bounded {n : Nat} (hn : n < 2 ^ 32) {calls : List Call}
    (hcalls : ∀ c ∈ calls, c.Within n) :
    ∃ d, (singletons n).performAll? calls = some d ∧ d.size = n ∧ ∀ x < n,
      (parentOf d.parent x ≠ x → d.rank.getD x 0 < d.rank.getD (parentOf d.parent x) 0) ∧
      (parentOf d.parent x = x → 2 ^ d.rank.getD x 0 ≤ (d.setOf x).card) ∧
      d.rank.getD x 0 < 2 ^ 8 ∧
      ∃ k ≤ 32, LeadsIn d.parent k x (d.find x).1 := by
  have hsize : (singletons n).size = n := Array.size_range
  rw [← hsize] at hcalls
  obtain ⟨d, hd, hweighted, hsize'⟩ := (weighted_singletons n).performAll? hcalls
  obtain rfl : d.size = n := hsize'.trans hsize
  refine ⟨d, hd, rfl, fun x hx => ⟨hweighted.sound.rank_lt x, fun hroot => ?_, ?_, ?_⟩⟩
  · exact hweighted.pow_rank_le x hx (hweighted.sound.root_eq_self hroot)
  · have := hweighted.rank_lt hn hx
    omega
  · obtain ⟨k, hk⟩ := (hweighted.sound.leads_root x).exists_leadsIn
    exact ⟨k, Nat.le_of_lt (hweighted.leadsIn_lt hn hx hk), hk⟩

/-- The last union joins two sets of two elements, and pays for the rank of its root with both. -/
theorem crossing_ranks : 5 < 2 ^ 32 ∧ (∀ c ∈ crossing, c.Within 5) ∧
    ∃ d, (singletons 5).performAll? crossing = some d ∧ d.rank.getD 0 0 = 2 ∧
      2 ^ 2 ≤ (d.setOf 0).card ∧ ∃ k ≤ 32, LeadsIn d.parent k 4 (d.find 4).1 := by
  have hn : 5 < 2 ^ 32 := by decide
  have hcrossing : ∀ c ∈ crossing, c.Within 5 := by simp [crossing, Call.Within]
  obtain ⟨d, hd, -, hbounds⟩ := ranks_bounded hn hcrossing
  obtain ⟨-, hpay, -, -⟩ := hbounds 0 (by decide)
  obtain ⟨-, -, -, hlinks⟩ := hbounds 4 (by decide)
  have hroot : ((singletons 5).performAll? crossing).map (fun d => parentOf d.parent 0) =
      some 0 := by decide
  have hrank : ((singletons 5).performAll? crossing).map (fun d => d.rank.getD 0 0) =
      some 2 := by decide
  rw [hd] at hroot hrank
  have hrank' : d.rank.getD 0 0 = 2 := Option.some.inj hrank
  rw [hrank'] at hpay
  exact ⟨hn, hcrossing, d, hd, hrank', hpay (Option.some.inj hroot), hlinks⟩

end DisjointSets

end Cyclewise
