import Mathlib.Algebra.Group.Nat.Defs
import Mathlib.Data.Finset.Range
import Mathlib.Data.Finset.Card
import Mathlib.Logic.Relation
import Cyclewise.Net.DisjointSets

/-!
# Roots of disjoint sets

`Leads parent x r` says that the way up from `x` ends at the root `r`.  In a sound forest ranks grow
along parent links, so `root` follows a way to its end (`leads_root`).  `find` shortens ways and
moves no element to another root (`sameRoots_find`), and `union` joins two classes and keeps the
others apart (`root_union`).
-/

namespace Cyclewise

namespace DisjointSets

/-! ## Ways up -/

/-- The parent links from `x` lead to the root `r`. -/
inductive Leads (parent : Array Nat) : Nat → Nat → Prop where
  | root {r} (h : parentOf parent r = r) : Leads parent r r
  | link {x r} (h : parentOf parent x ≠ x) (up : Leads parent (parentOf parent x) r) :
      Leads parent x r

/-- Every parent link leads to an element of higher rank. -/
structure Sound (d : DisjointSets) : Prop where
  rank_size : d.rank.size = d.parent.size
  parent_lt : ∀ x, x < d.size → parentOf d.parent x < d.size
  rank_lt : ∀ x, parentOf d.parent x ≠ x →
    d.rank.getD x 0 < d.rank.getD (parentOf d.parent x) 0

theorem parentOf_set {parent : Array Nat} {x p : Nat} (hx : x < parent.size) (y : Nat) :
    parentOf (parent.setIfInBounds x p) y = if y = x then p else parentOf parent y := by
  unfold parentOf
  rw [Array.getD_eq_getD_getElem?, Array.getD_eq_getD_getElem?, Array.getElem?_setIfInBounds]
  by_cases h : x = y
  · subst h
    simp [hx]
  · rw [if_neg h, if_neg (Ne.symm h)]

namespace Leads

variable {parent : Array Nat} {x y r r' : Nat}

theorem parentOf_eq (h : Leads parent x r) : parentOf parent r = r := by
  induction h with
  | root h => exact h
  | link _ _ ih => exact ih

theorem unique (h : Leads parent x r) (h' : Leads parent x r') : r = r' := by
  induction h with
  | root hr =>
    cases h' with
    | root => rfl
    | link hne => exact absurd hr hne
  | link hne _ ih =>
    cases h' with
    | root hr => exact absurd hr hne
    | link _ up => exact ih up

/-- Redirecting the link of `x` to its root changes the root of no element. -/
theorem set (hx : Leads parent x r) (hlt : x < parent.size) (h : Leads parent y r') :
    Leads (parent.setIfInBounds x r) y r' := by
  have hr : parentOf (parent.setIfInBounds x r) r = r := by
    rw [parentOf_set hlt]
    split
    · rfl
    · exact hx.parentOf_eq
  have hat : parentOf (parent.setIfInBounds x r) x = r := by rw [parentOf_set hlt, if_pos rfl]
  have hfrom : Leads (parent.setIfInBounds x r) x r := by
    by_cases hxr : x = r
    · subst hxr
      exact .root hr
    · exact .link (fun e => hxr (e.symm.trans hat)) (hat.symm ▸ .root hr)
  induction h with
  | @root y hy =>
    by_cases hyx : y = x
    · subst hyx
      exact hx.unique (.root hy) ▸ hfrom
    · exact .root (by rw [parentOf_set hlt, if_neg hyx, hy])
  | @link y r' hy up ih =>
    by_cases hyx : y = x
    · subst hyx
      exact hx.unique (.link hy up) ▸ hfrom
    · have hsame : parentOf (parent.setIfInBounds x r) y = parentOf parent y := by
        rw [parentOf_set hlt, if_neg hyx]
      exact .link (hsame.symm ▸ hy) (hsame.symm ▸ ih)

end Leads

/-! ## Roots -/

/-- The elements of higher rank than `x`. -/
def above (d : DisjointSets) (x : Nat) : Finset Nat :=
  (Finset.range d.size).filter fun y => d.rank.getD x 0 < d.rank.getD y 0

theorem card_above_le (d : DisjointSets) (x : Nat) : (d.above x).card ≤ d.size := by
  have h := Finset.card_filter_le (Finset.range d.size)
    fun y => d.rank.getD x 0 < d.rank.getD y 0
  rwa [Finset.card_range] at h

namespace Sound

variable {d : DisjointSets} (hd : d.Sound)

include hd

theorem leads_lt {x r : Nat} (h : Leads d.parent x r) (hx : x < d.size) : r < d.size := by
  induction h with
  | root => exact hx
  | link _ _ ih => exact ih (hd.parent_lt _ hx)

theorem leads_rank_lt {x r : Nat} (h : Leads d.parent x r) (hxr : x ≠ r) :
    d.rank.getD x 0 < d.rank.getD r 0 := by
  induction h with
  | root => exact absurd rfl hxr
  | @link x r hx up ih =>
    have hstep := hd.rank_lt x hx
    by_cases hp : parentOf d.parent x = r
    · rwa [hp] at hstep
    · have := ih hp
      omega

theorem rank_out {x : Nat} (hx : d.size ≤ x) : d.rank.getD x 0 = 0 := by
  rw [Array.getD_eq_getD_getElem?, Array.getElem?_eq_none (hd.rank_size ▸ hx), Option.getD_none]

/-- A parent is of higher rank than its child, and not of higher rank than itself. -/
theorem card_above_lt {x : Nat} (hx : parentOf d.parent x ≠ x) :
    (d.above (parentOf d.parent x)).card < (d.above x).card := by
  have hup := hd.rank_lt x hx
  have hin : parentOf d.parent x < d.size := by
    apply Classical.byContradiction
    intro hge
    rw [hd.rank_out (Nat.le_of_not_lt hge)] at hup
    omega
  apply Finset.card_lt_card
  refine Finset.ssubset_iff_of_subset (fun y hy => ?_) |>.2 ⟨parentOf d.parent x, ?_, ?_⟩
  · rw [above, Finset.mem_filter] at hy ⊢
    exact ⟨hy.1, Nat.lt_trans hup hy.2⟩
  · exact Finset.mem_filter.2 ⟨Finset.mem_range.2 hin, hup⟩
  · intro h
    exact absurd (Finset.mem_filter.1 h).2 (Nat.lt_irrefl _)

theorem parentOf_eq_self {x : Nat} (h : (d.above x).card = 0) : parentOf d.parent x = x := by
  apply Classical.byContradiction
  intro hx
  have := hd.card_above_lt hx
  omega

/-- The elements of higher rank become fewer with each link, so they bound the way up. -/
theorem leads_climb {fuel x : Nat} (h : (d.above x).card ≤ fuel) :
    Leads d.parent x (climb d.parent fuel x) := by
  induction fuel generalizing x with
  | zero => exact .root (hd.parentOf_eq_self (Nat.eq_zero_of_le_zero h))
  | succ fuel ih =>
    unfold climb
    by_cases hx : parentOf d.parent x = x
    · simp only [hx, if_pos]
      exact .root hx
    · simp only [hx, if_false]
      refine .link hx (ih ?_)
      have := hd.card_above_lt hx
      omega

theorem leads_root (x : Nat) : Leads d.parent x (d.root x) := hd.leads_climb (d.card_above_le x)

theorem root_eq_iff {x r : Nat} : d.root x = r ↔ Leads d.parent x r :=
  ⟨fun h => h ▸ hd.leads_root x, fun h => (hd.leads_root x).unique h⟩

theorem root_eq_self {x : Nat} (hx : parentOf d.parent x = x) : d.root x = x :=
  hd.root_eq_iff.2 (.root hx)

theorem root_parentOf (x : Nat) : d.root (parentOf d.parent x) = d.root x := by
  by_cases hx : parentOf d.parent x = x
  · rw [hx]
  · exact (hd.root_eq_iff.2 (.link hx (hd.leads_root _))).symm

theorem root_root (x : Nat) : d.root (d.root x) = d.root x :=
  hd.root_eq_self (hd.leads_root x).parentOf_eq

theorem root_lt {x : Nat} (hx : x < d.size) : d.root x < d.size :=
  hd.leads_lt (hd.leads_root x) hx

end Sound

/-! ## Finding -/

/-- Two forests over the same elements, each element with one root in both. -/
structure SameRoots (d d' : DisjointSets) : Prop where
  sound : d'.Sound
  size_eq : d'.size = d.size
  rank_eq : d'.rank = d.rank
  root_eq : ∀ y, d'.root y = d.root y

namespace SameRoots

variable {d d' d'' : DisjointSets}

theorem refl (hd : d.Sound) : d.SameRoots d := ⟨hd, rfl, rfl, fun _ => rfl⟩

theorem trans (h : d.SameRoots d') (h' : d'.SameRoots d'') : d.SameRoots d'' :=
  ⟨h'.sound, h'.size_eq.trans h.size_eq, h'.rank_eq.trans h.rank_eq,
    fun y => (h'.root_eq y).trans (h.root_eq y)⟩

end SameRoots

/-- Redirecting one link to the root keeps all roots. -/
theorem Sound.sameRoots_set {d : DisjointSets} (hd : d.Sound) {x : Nat} (hx : x < d.size) :
    d.SameRoots { d with parent := d.parent.setIfInBounds x (d.root x) } := by
  have hup := hd.leads_root x
  have hsound : Sound { d with parent := d.parent.setIfInBounds x (d.root x) } := by
    refine ⟨by simpa using hd.rank_size, fun y hy => ?_, fun y hy => ?_⟩
    · simp only [size, Array.size_setIfInBounds] at hy ⊢
      rw [parentOf_set hx]
      split
      · exact hd.root_lt hx
      · exact hd.parent_lt y hy
    · simp only [parentOf_set hx] at hy ⊢
      split
      · next hyx =>
        subst hyx
        rw [if_pos rfl] at hy
        exact hd.leads_rank_lt hup (Ne.symm hy)
      · next hyx =>
        rw [if_neg hyx] at hy
        exact hd.rank_lt y hy
  refine ⟨hsound, by simp [size], rfl, fun y => ?_⟩
  exact hsound.root_eq_iff.2 (hup.set hx (hd.leads_root y))

theorem Sound.sameRoots_redirect {d : DisjointSets} (hd : d.Sound) (fuel : Nat) {x : Nat}
    (hx : x < d.size) :
    d.SameRoots { d with parent := redirect (d.root x) fuel d.parent x } := by
  induction fuel generalizing d x with
  | zero => exact .refl hd
  | succ fuel ih =>
    unfold redirect
    by_cases hp : parentOf d.parent x = d.root x
    · simp only [hp, if_pos]
      exact .refl hd
    · simp only [hp, if_false]
      have hset := hd.sameRoots_set hx
      -- the rest of the way has the root of `x` in the new forest as well
      have hroot := hd.root_parentOf x
      have hrest := ih hset.sound (x := parentOf d.parent x)
        (by rw [hset.size_eq]; exact hd.parent_lt x hx)
      rw [hset.root_eq, hroot] at hrest
      exact hset.trans hrest

/-- `find` gives the root and keeps all roots. -/
theorem Sound.sameRoots_find {d : DisjointSets} (hd : d.Sound) {x : Nat} (hx : x < d.size) :
    (d.find x).1 = d.root x ∧ d.SameRoots (d.find x).2 :=
  ⟨rfl, hd.sameRoots_redirect d.size hx⟩

/-! ## Merging -/

/-- Hanging the root `b` under the root `a` turns the root `b` into `a` everywhere. -/
theorem Leads.hang {parent : Array Nat} {a b y r : Nat} (ha : parentOf parent a = a)
    (hb : parentOf parent b = b) (hab : a ≠ b) (hlt : b < parent.size) (h : Leads parent y r) :
    Leads (parent.setIfInBounds b a) y (if r = b then a else r) := by
  have ha' : parentOf (parent.setIfInBounds b a) a = a := by
    rw [parentOf_set hlt, if_neg hab, ha]
  have hb' : parentOf (parent.setIfInBounds b a) b = a := by rw [parentOf_set hlt, if_pos rfl]
  induction h with
  | @root r hr =>
    split
    · next hrb =>
      subst hrb
      exact .link (fun e => hab (hb'.symm.trans e)) (hb'.symm ▸ .root ha')
    · next hrb => exact .root (by rw [parentOf_set hlt, if_neg hrb, hr])
  | @link y r hy up ih =>
    have hyb : y ≠ b := fun e => hy (e ▸ hb)
    have hsame : parentOf (parent.setIfInBounds b a) y = parentOf parent y := by
      rw [parentOf_set hlt, if_neg hyb]
    exact .link (hsame.symm ▸ hy) (hsame.symm ▸ ih)

/-- The forest `d'` is `d` with the root `b` hung under the root `a`. -/
structure Hangs (d d' : DisjointSets) (a b : Nat) : Prop where
  sound : d'.Sound
  size_eq : d'.size = d.size
  root_eq : ∀ y, d'.root y = if d.root y = b then a else d.root y

/-- Hanging a root under another one is sound for ranks that keep the links below growing. -/
theorem Sound.hangs {d : DisjointSets} (hd : d.Sound) {a b : Nat}
    (ha : parentOf d.parent a = a) (hb : parentOf d.parent b = b) (hab : a ≠ b)
    (halt : a < d.size) (hblt : b < d.size) {rank : Array Nat} (hsize : rank.size = d.rank.size)
    (hle : ∀ y, d.rank.getD y 0 ≤ rank.getD y 0) (heq : ∀ y ≠ a, rank.getD y 0 = d.rank.getD y 0)
    (hlt : rank.getD b 0 < rank.getD a 0) :
    d.Hangs ⟨d.parent.setIfInBounds b a, rank⟩ a b := by
  have hsound : Sound ⟨d.parent.setIfInBounds b a, rank⟩ := by
    refine ⟨by simp [hsize, hd.rank_size], fun y hy => ?_, fun y hy => ?_⟩
    · simp only [size, Array.size_setIfInBounds] at hy ⊢
      rw [parentOf_set hblt]
      split
      · exact halt
      · exact hd.parent_lt y hy
    · simp only [parentOf_set hblt] at hy ⊢
      split
      · next hyb => exact hyb ▸ hlt
      · next hyb =>
        rw [if_neg hyb] at hy
        have hya : y ≠ a := fun e => hy (e ▸ ha)
        have := hd.rank_lt y hy
        have := hle (parentOf d.parent y)
        rw [heq y hya]
        omega
  refine ⟨hsound, by simp [size], fun y => ?_⟩
  exact hsound.root_eq_iff.2 ((hd.leads_root y).hang ha hb hab hblt)

/-- A root was hung under another one, and of the ranks at most that of the upper root has grown: what
it counts for is no more than both roots counted for. -/
structure Merges (d d' : DisjointSets) (a b : Nat) : Prop extends Hangs d d' a b where
  rank_eq : ∀ y ≠ a, d'.rank.getD y 0 = d.rank.getD y 0
  pow_rank_le : 2 ^ d'.rank.getD a 0 ≤ 2 ^ d.rank.getD a 0 + 2 ^ d.rank.getD b 0

/-- `link` hangs one of two roots under the other one. -/
theorem Sound.merges_link {d : DisjointSets} (hd : d.Sound) {a b : Nat}
    (ha : parentOf d.parent a = a) (hb : parentOf d.parent b = b) (hab : a ≠ b)
    (halt : a < d.size) (hblt : b < d.size) :
    d.Merges (d.link a b) a b ∨ d.Merges (d.link a b) b a := by
  unfold link
  simp only
  split
  · next h =>
    exact .inr ⟨hd.hangs hb ha (Ne.symm hab) hblt halt rfl (fun _ => Nat.le_refl _)
      (fun _ _ => rfl) h, fun _ _ => rfl, Nat.le_add_right ..⟩
  · split
    · next h =>
      exact .inl ⟨hd.hangs ha hb hab halt hblt rfl (fun _ => Nat.le_refl _) (fun _ _ => rfl) h,
        fun _ _ => rfl, Nat.le_add_right ..⟩
    · next h h' =>
      have hin : a < d.rank.size := hd.rank_size ▸ halt
      have hget : ∀ y, (d.rank.setIfInBounds a (d.rank.getD a 0 + 1)).getD y 0 =
          if y = a then d.rank.getD a 0 + 1 else d.rank.getD y 0 := by
        intro y
        rw [Array.getD_eq_getD_getElem?, Array.getElem?_setIfInBounds]
        by_cases hy : a = y
        · subst hy
          simp [hin]
        · rw [if_neg hy, if_neg (Ne.symm hy), Array.getD_eq_getD_getElem?]
      refine .inl ⟨hd.hangs ha hb hab halt hblt (by simp) (fun y => ?_) (fun y hy => ?_) ?_,
        fun y hy => ?_, ?_⟩
      · rw [hget]
        by_cases hy : y = a
        · rw [if_pos hy, hy]
          exact Nat.le_succ _
        · rw [if_neg hy]
      · rw [hget, if_neg hy]
      · rw [hget, hget, if_neg (Ne.symm hab), if_pos rfl]
        omega
      · rw [hget, if_neg hy]
      · -- of two equal ranks the sum of what they count for is what one more counts for
        have heq : d.rank.getD b 0 = d.rank.getD a 0 := by omega
        rw [hget, if_pos rfl, heq, Nat.pow_succ]
        omega

/-- `union` finds both roots, and hangs one under the other if they are different. -/
theorem Sound.union_cases {d : DisjointSets} (hd : d.Sound) {a b : Nat} (ha : a < d.size)
    (hb : b < d.size) : ∃ d', d.SameRoots d' ∧
      (d.root a = d.root b ∧ (d.union a b).2 = d' ∨
        d.root a ≠ d.root b ∧ (d'.Merges (d.union a b).2 (d.root a) (d.root b) ∨
          d'.Merges (d.union a b).2 (d.root b) (d.root a))) := by
  obtain ⟨hroota, hfinda⟩ := hd.sameRoots_find ha
  obtain ⟨hrootb, hfindb⟩ :=
    hfinda.sound.sameRoots_find (x := b) (by rw [hfinda.size_eq]; exact hb)
  have hall := hfinda.trans hfindb
  rw [hfinda.root_eq] at hrootb
  have hself : ∀ x, parentOf ((d.find a).2.find b).2.parent (d.root x) = d.root x := by
    intro x
    have h := (hall.sound.leads_root x).parentOf_eq
    rwa [hall.root_eq] at h
  refine ⟨_, hall, ?_⟩
  unfold union
  simp only [hroota, hrootb]
  split
  · next heq => exact .inl ⟨heq, rfl⟩
  · next hne =>
    refine .inr ⟨hne, hall.sound.merges_link (hself a) (hself b) hne ?_ ?_⟩
    · rw [hall.size_eq]
      exact hd.root_lt ha
    · rw [hall.size_eq]
      exact hd.root_lt hb

/-- `union` joins the classes of two elements and keeps the others apart. -/
theorem Sound.root_union {d : DisjointSets} (hd : d.Sound) {a b : Nat} (ha : a < d.size)
    (hb : b < d.size) :
    (d.union a b).2.Sound ∧ (d.union a b).2.size = d.size ∧
      ∀ x y, (d.union a b).2.root x = (d.union a b).2.root y ↔
        d.root x = d.root y ∨ (d.root x = d.root a ∧ d.root y = d.root b) ∨
          (d.root x = d.root b ∧ d.root y = d.root a) := by
  obtain ⟨d', hall, ⟨heq, h⟩ | ⟨hne, h | h⟩⟩ := hd.union_cases ha hb
  · rw [h]
    refine ⟨hall.sound, hall.size_eq, fun x y => ?_⟩
    rw [hall.root_eq, hall.root_eq, heq]
    constructor
    · exact .inl
    · rintro (h | ⟨h, h'⟩ | ⟨h, h'⟩)
      · exact h
      · exact h.trans h'.symm
      · exact h.trans h'.symm
  · refine ⟨h.sound, h.size_eq.trans hall.size_eq, fun x y => ?_⟩
    rw [h.root_eq, h.root_eq, hall.root_eq, hall.root_eq]
    grind
  · refine ⟨h.sound, h.size_eq.trans hall.size_eq, fun x y => ?_⟩
    rw [h.root_eq, h.root_eq, hall.root_eq, hall.root_eq]
    grind

/-! ## Forests of single elements -/

theorem sound_singletons (n : Nat) : (singletons n).Sound := by
  have hparent : ∀ x, parentOf (Array.range n) x = x := by
    intro x
    unfold parentOf
    rw [Array.getD_eq_getD_getElem?]
    rcases Nat.lt_or_ge x n with h | h
    · simp [h]
    · rw [Array.getElem?_eq_none (by simpa using h), Option.getD_none]
  refine ⟨by simp [singletons], fun x hx => ?_, fun x hx => absurd (hparent x) hx⟩
  exact (hparent x).symm ▸ hx

theorem root_singletons (n x : Nat) : (singletons n).root x = x := by
  have hd := sound_singletons n
  refine hd.root_eq_iff.2 (.root ?_)
  apply Classical.byContradiction
  intro hx
  have h := hd.rank_lt x hx
  simp only [singletons, Array.getD_eq_getD_getElem?, Array.getElem?_replicate] at h
  split at h <;> split at h <;> simp at h

/-- A map that relates the images of related elements does so for the equivalences generated. -/
theorem eqvGen_map {α β : Type} {r : α → α → Prop} {p : β → β → Prop} {f : α → β}
    (h : ∀ x y, r x y → Relation.EqvGen p (f x) (f y)) {x y : α} (hxy : Relation.EqvGen r x y) :
    Relation.EqvGen p (f x) (f y) := by
  induction hxy with
  | rel x y hxy => exact h x y hxy
  | refl => exact .refl _
  | symm _ _ _ ih => exact .symm _ _ ih
  | trans _ _ _ _ _ ih ih' => exact .trans _ _ _ ih ih'

/-- What connects two elements after a union connects them before it, together with the union. -/
theorem Sound.eqvGen_union {d : DisjointSets} (hd : d.Sound) {a b : Nat} (ha : a < d.size)
    (hb : b < d.size) (p : Nat → Nat → Prop) (x y : Nat) :
    Relation.EqvGen (fun x y => (d.union a b).2.root x = (d.union a b).2.root y ∨ p x y) x y ↔
      Relation.EqvGen (fun x y => d.root x = d.root y ∨ (x = a ∧ y = b) ∨ p x y) x y := by
  obtain ⟨-, -, hroot⟩ := hd.root_union ha hb
  constructor
  · have hlink : Relation.EqvGen (fun x y => d.root x = d.root y ∨ (x = a ∧ y = b) ∨ p x y) a b :=
      .rel _ _ (.inr (.inl ⟨rfl, rfl⟩))
    refine eqvGen_map (f := id) fun x y h => ?_
    rcases h with h | h
    · rcases (hroot x y).1 h with h | ⟨h, h'⟩ | ⟨h, h'⟩
      · exact .rel _ _ (.inl h)
      · exact (.trans _ _ _ (.rel _ _ (.inl h))
          (.trans _ _ _ hlink (.rel _ _ (.inl h'.symm))))
      · exact (.trans _ _ _ (.rel _ _ (.inl h))
          (.trans _ _ _ (.symm _ _ hlink) (.rel _ _ (.inl h'.symm))))
    · exact .rel _ _ (.inr (.inr h))
  · refine eqvGen_map (f := id) fun x y h => .rel _ _ ?_
    rcases h with h | ⟨rfl, rfl⟩ | h
    · exact .inl ((hroot x y).2 (.inl h))
    · exact .inl ((hroot x y).2 (.inr (.inl ⟨rfl, rfl⟩)))
    · exact .inr h

/-- Roots alone connect just the elements with one root. -/
theorem eqvGen_root (d : DisjointSets) {p : Nat → Nat → Prop} (hp : ∀ x y, ¬ p x y) (x y : Nat) :
    Relation.EqvGen (fun x y => d.root x = d.root y ∨ p x y) x y ↔ d.root x = d.root y := by
  simp only [hp, or_false]
  exact (eq_equivalence.comap d.root).eqvGen_iff

/-- Two elements have one root after unions exactly when roots and unions connect them. -/
theorem Sound.root_foldl_union {d : DisjointSets} (hd : d.Sound) {pairs : List (Nat × Nat)}
    (hpairs : ∀ p ∈ pairs, p.1 < d.size ∧ p.2 < d.size) :
    (pairs.foldl (fun d p => (d.union p.1 p.2).2) d).Sound ∧
      (pairs.foldl (fun d p => (d.union p.1 p.2).2) d).size = d.size ∧
      ∀ x y, (pairs.foldl (fun d p => (d.union p.1 p.2).2) d).root x =
          (pairs.foldl (fun d p => (d.union p.1 p.2).2) d).root y ↔
        Relation.EqvGen (fun x y => d.root x = d.root y ∨ (x, y) ∈ pairs) x y := by
  induction pairs generalizing d with
  | nil => exact ⟨hd, rfl, fun x y => (d.eqvGen_root (fun _ _ => List.not_mem_nil) x y).symm⟩
  | cons p pairs ih =>
    obtain ⟨hlt, hlt'⟩ := hpairs p List.mem_cons_self
    obtain ⟨hsound, hsize, -⟩ := hd.root_union hlt hlt'
    obtain ⟨hsound', hsize', hroot'⟩ := ih hsound
      (fun q hq => hsize.symm ▸ hpairs q (List.mem_cons_of_mem p hq))
    refine ⟨hsound', hsize'.trans hsize, fun x y => (hroot' x y).trans ?_⟩
    rw [hd.eqvGen_union hlt hlt']
    simp only [List.mem_cons, Prod.ext_iff]

end DisjointSets

end Cyclewise
