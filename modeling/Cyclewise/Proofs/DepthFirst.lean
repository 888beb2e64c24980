import Mathlib.Data.List.Nodup
import Mathlib.Logic.Relation

/-!
# Walking through a forest

Some items have a parent of lower rank, and each item knows its children in order (`IsForest`).
`DepthFirst children roots out` says that `out` is the forest below `roots` in pre-order: root by
root, each followed at once by the pre-order of its children.  A loop that takes the first item off
a stack, lists it, and puts its children in front of what is pending (`StackLoop`) gives this and
nothing else (`stackLoop_iff_depthFirst`).

Below roots that have nothing in common, the pre-order holds each item inside a root once, and never
lists an item behind one that lies inside it (`IsForest.mem_iff`, `IsForest.pairwise`).  Where ranks
are bounded the loop comes to its end (`IsForest.exists_depthFirst`), and so does a loop that
follows parents (`IsForest.exists_parentLoop`).
-/

namespace Cyclewise

variable {α : Type} {children : α → List α}

/-- The forest below some roots in pre-order. -/
inductive DepthFirst (children : α → List α) : List α → List α → Prop where
  | nil : DepthFirst children [] []
  | cons {a roots below rest} (hbelow : DepthFirst children (children a) below)
      (hrest : DepthFirst children roots rest) :
      DepthFirst children (a :: roots) (a :: (below ++ rest))

/-- What a loop over a stack of pending items lists until the stack is empty. -/
inductive StackLoop (children : α → List α) : List α → List α → Prop where
  | done : StackLoop children [] []
  | step {a pending out} (h : StackLoop children (children a ++ pending) out) :
      StackLoop children (a :: pending) (a :: out)

/-- What a loop that follows parents lists until there is none. -/
inductive ParentLoop (parent : α → Option α) : Option α → List α → Prop where
  | done : ParentLoop parent none []
  | step {a out} (h : ParentLoop parent (parent a) out) : ParentLoop parent (some a) (a :: out)

/-! ## The loop over a stack -/

theorem DepthFirst.append {roots roots' out out' : List α} (h : DepthFirst children roots out)
    (h' : DepthFirst children roots' out') :
    DepthFirst children (roots ++ roots') (out ++ out') := by
  induction h with
  | nil => exact h'
  | cons hbelow _ _ ih =>
    rw [List.cons_append, List.cons_append, List.append_assoc]
    exact .cons hbelow ih

/-- The pre-order of a first and a second part of the roots comes in two parts. -/
theorem DepthFirst.split {roots roots' out : List α}
    (h : DepthFirst children (roots ++ roots') out) :
    ∃ first second, out = first ++ second ∧ DepthFirst children roots first ∧
      DepthFirst children roots' second := by
  induction roots generalizing out with
  | nil => exact ⟨[], out, rfl, .nil, h⟩
  | cons a roots ih =>
    cases h with
    | cons hbelow hrest =>
      obtain ⟨first, second, rfl, hfirst, hsecond⟩ := ih hrest
      refine ⟨_, second, ?_, .cons hbelow hfirst, hsecond⟩
      rw [List.cons_append, List.append_assoc]

theorem StackLoop.append {roots roots' out out' : List α} (h : StackLoop children roots out)
    (h' : StackLoop children roots' out') : StackLoop children (roots ++ roots') (out ++ out') := by
  induction h with
  | done => exact h'
  | step _ ih =>
    rw [List.append_assoc] at ih
    exact .step ih

/-- The loop lists in pre-order. -/
theorem stackLoop_iff_depthFirst {roots out : List α} :
    StackLoop children roots out ↔ DepthFirst children roots out := by
  constructor
  · intro h
    induction h with
    | done => exact .nil
    | step _ ih =>
      obtain ⟨below, rest, rfl, hbelow, hrest⟩ := ih.split
      exact .cons hbelow hrest
  · intro h
    induction h with
    | nil => exact .done
    | cons _ _ ihbelow ihrest => exact .step (ihbelow.append ihrest)

/-- An item is followed at once by everything below it, in pre-order. -/
theorem DepthFirst.exists_segment {roots out : List α} (h : DepthFirst children roots out) {a : α}
    (ha : a ∈ out) : ∃ before below after, out = before ++ a :: (below ++ after) ∧
      DepthFirst children (children a) below := by
  induction h with
  | nil => cases ha
  | @cons b roots below rest hbelow _ ihbelow ihrest =>
    rcases List.mem_cons.1 ha with rfl | ha
    · exact ⟨[], below, rest, rfl, hbelow⟩
    rcases List.mem_append.1 ha with ha | ha
    · obtain ⟨before, inner, after, rfl, hinner⟩ := ihbelow ha
      exact ⟨b :: before, inner, after ++ rest, by simp, hinner⟩
    · obtain ⟨before, inner, after, rfl, hinner⟩ := ihrest ha
      exact ⟨b :: (below ++ before), inner, after, by simp, hinner⟩

theorem exists_depthFirst_of_forall {roots : List α}
    (h : ∀ r ∈ roots, ∃ below, DepthFirst children (children r) below) :
    ∃ out, DepthFirst children roots out := by
  induction roots with
  | nil => exact ⟨[], .nil⟩
  | cons r roots ih =>
    obtain ⟨below, hbelow⟩ := h r List.mem_cons_self
    obtain ⟨rest, hrest⟩ := ih fun s hs => h s (List.mem_cons_of_mem r hs)
    exact ⟨_, .cons hbelow hrest⟩

/-! ## Forests -/

/-- Every item is among the children of its parent, once, and has a greater rank. -/
structure IsForest (parent : α → Option α) (children : α → List α) (rank : α → Nat) : Prop where
  mem_children : ∀ {a p}, a ∈ children p ↔ parent a = some p
  nodup_children : ∀ p, (children p).Nodup
  rank_lt : ∀ {a p}, parent a = some p → rank p < rank a

/-- An item is another one or lies below it. -/
def Inside (parent : α → Option α) : α → α → Prop :=
  Relation.ReflTransGen fun a p => parent a = some p

/-- Following parents passes whatever an item lies inside. -/
theorem ParentLoop.mem_iff {parent : α → Option α} {start : Option α} {out : List α}
    (h : ParentLoop parent start out) {b : α} :
    b ∈ out ↔ ∃ a, start = some a ∧ Inside parent a b := by
  induction h with
  | done => simp
  | @step a out _ ih =>
    have hstep : Inside parent a b ↔ a = b ∨ ∃ p, parent a = some p ∧ Inside parent p b :=
      Relation.ReflTransGen.cases_head_iff
    rw [List.mem_cons, ih, ← eq_comm (a := a), ← hstep]
    simp

namespace IsForest

variable {parent : α → Option α} {rank : α → Nat} (hf : IsForest parent children rank)

include hf

theorem rank_le {a b : α} (h : Inside parent a b) : rank b ≤ rank a := by
  induction h with
  | refl => exact Nat.le_refl _
  | tail _ hlink ih =>
    have := hf.rank_lt hlink
    omega

/-- Whatever lies inside an item is the item or lies inside one of its children. -/
theorem inside_iff {a b : α} :
    Inside parent a b ↔ a = b ∨ ∃ c ∈ children b, Inside parent a c := by
  have hstep : Inside parent a b ↔ b = a ∨ ∃ c, Inside parent a c ∧ parent c = some b :=
    Relation.ReflTransGen.cases_tail_iff ..
  rw [hstep, eq_comm]
  refine or_congr_right (exists_congr fun c => ?_)
  rw [hf.mem_children, and_comm]

/-- A parent does not lie inside its child. -/
theorem not_inside_child {c p : α} (hc : c ∈ children p) : ¬ Inside parent p c := by
  intro h
  have hle := hf.rank_le h
  have hlt := hf.rank_lt (hf.mem_children.1 hc)
  omega

/-- Two children of one item have nothing in common. -/
theorem children_apart (p : α) :
    (children p).Pairwise fun c d => ∀ a, Inside parent a c → ¬ Inside parent a d := by
  have hunique : Relator.RightUnique fun a p => parent a = some p := fun _ _ _ h h' =>
    Option.some.inj (h.symm.trans h')
  -- one of the two would lie inside the other, and so inside `p`
  have hno : ∀ {c d}, c ∈ children p → d ∈ children p → c ≠ d → ¬ Inside parent c d := by
    intro c d hc hd hcd h
    rcases Relation.ReflTransGen.cases_head h with heq | ⟨q, hq, h⟩
    · exact hcd heq
    · obtain rfl : q = p := Option.some.inj (hq.symm.trans (hf.mem_children.1 hc))
      exact hf.not_inside_child hd h
  refine (hf.nodup_children p).imp_of_mem fun {c d} hc hd hcd a hac had => ?_
  rcases Relation.ReflTransGen.total_of_right_unique hunique hac had with h | h
  · exact hno hc hd hcd h
  · exact hno hd hc (Ne.symm hcd) h

/-- The pre-order holds what lies inside the roots. -/
theorem mem_iff {roots out : List α} (h : DepthFirst children roots out) {a : α} :
    a ∈ out ↔ ∃ r ∈ roots, Inside parent a r := by
  induction h with
  | nil => simp
  | @cons b roots below rest _ _ ihbelow ihrest =>
    rw [List.mem_cons, List.mem_append, ihbelow, ihrest, List.exists_mem_cons_iff,
      hf.inside_iff (b := b), or_assoc]

/-- Nothing is listed behind what lies inside it, nor twice. -/
theorem pairwise {roots out : List α} (h : DepthFirst children roots out)
    (hroots : roots.Pairwise fun r s => ∀ a, Inside parent a r → ¬ Inside parent a s) :
    out.Pairwise fun a b => ¬ Inside parent a b := by
  induction h with
  | nil => exact List.Pairwise.nil
  | @cons b roots below rest hbelow hrest ihbelow ihrest =>
    obtain ⟨hb, hroots⟩ := List.pairwise_cons.1 hroots
    have hapart : ∀ a, Inside parent a b → ∀ x ∈ rest, ¬ Inside parent a x := by
      intro a ha x hx hax
      obtain ⟨r, hr, hxr⟩ := (hf.mem_iff hrest).1 hx
      exact hb r hr a ha (hax.trans hxr)
    refine List.pairwise_cons.2 ⟨fun x hx => ?_, List.pairwise_append.2
      ⟨ihbelow (hf.children_apart b), ihrest hroots, fun a ha x hx => ?_⟩⟩
    · rcases List.mem_append.1 hx with hx | hx
      · obtain ⟨c, hc, hxc⟩ := (hf.mem_iff hbelow).1 hx
        exact fun hbx => hf.not_inside_child hc (hbx.trans hxc)
      · exact hapart b .refl x hx
    · obtain ⟨c, hc, hac⟩ := (hf.mem_iff hbelow).1 ha
      exact hapart a (hf.inside_iff.2 (.inr ⟨c, hc, hac⟩)) x hx

theorem nodup {roots out : List α} (h : DepthFirst children roots out)
    (hroots : roots.Pairwise fun r s => ∀ a, Inside parent a r → ¬ Inside parent a s) :
    out.Nodup := by
  refine (hf.pairwise h hroots).imp fun hnot heq => hnot ?_
  rw [heq]
  exact .refl

/-- Following parents comes to an end, after no more steps than the rank allows for. -/
theorem exists_parentLoop (a : α) :
    ∃ out, ParentLoop parent (some a) out ∧ out.length ≤ rank a + 1 := by
  induction h : rank a using Nat.strongRecOn generalizing a with
  | _ n ih =>
    cases hp : parent a with
    | none => exact ⟨[a], .step (by rw [hp]; exact .done), Nat.le_add_left 1 n⟩
    | some p =>
      have hlt := hf.rank_lt hp
      obtain ⟨out, hout, hlength⟩ := ih (rank p) (h ▸ hlt) p rfl
      refine ⟨a :: out, .step (by rw [hp]; exact hout), ?_⟩
      rw [List.length_cons]
      omega

/-- If no rank of a child reaches `bound`, the loop comes to its end. -/
theorem exists_depthFirst {bound : Nat} (hbound : ∀ {a p}, parent a = some p → rank a < bound)
    (roots : List α) : ∃ out, DepthFirst children roots out := by
  -- by how far the ranks of the roots may stay behind the bound
  have hgap : ∀ n, ∀ roots : List α, (∀ r ∈ roots, bound ≤ rank r + n) →
      ∃ out, DepthFirst children roots out := by
    intro n
    induction n with
    | zero =>
      intro roots hroots
      refine exists_depthFirst_of_forall fun r hr => ⟨[], ?_⟩
      have hleaf : children r = [] := by
        refine List.eq_nil_iff_forall_not_mem.2 fun c hc => ?_
        have hlt := hf.rank_lt (hf.mem_children.1 hc)
        have hin := hbound (hf.mem_children.1 hc)
        have hgap := hroots r hr
        omega
      rw [hleaf]
      exact .nil
    | succ n ih =>
      intro roots hroots
      refine exists_depthFirst_of_forall fun r hr => ih (children r) fun c hc => ?_
      have hlt := hf.rank_lt (hf.mem_children.1 hc)
      have hgap := hroots r hr
      omega
  exact hgap bound roots fun r _ => Nat.le_add_left bound (rank r)

end IsForest

end Cyclewise
