import Cyclewise.Proofs.Net.DisjointSets

/-!
# The classes of disjoint sets

Elements are joined by calls when unions among the calls connect them (`Joined`).  One call changes
what is connected by its own union only (`Sound.perform?`), so that after any calls the roots tell
which elements are joined (`root_eq_iff_joined`), and the answers to further calls do
(`classes_generated`).  No call runs forever: `Leads` and `Redirects` are the two loops of `find`,
run to their ends.
-/

namespace Cyclewise

namespace DisjointSets

/-! ## The loops of `find` -/

/-- The way from `x` up, each link of it redirected to `r`, down to the first link that leads there
already. -/
inductive Redirects (r : Nat) : Array Nat → Nat → Array Nat → Prop where
  | done {parent x} (h : parentOf parent x = r) : Redirects r parent x parent
  | link {parent x parent'} (h : parentOf parent x ≠ r)
      (up : Redirects r (parent.setIfInBounds x r) (parentOf parent x) parent') :
      Redirects r parent x parent'

/-- Both loops of `find` come to their end, with what `find` gives. -/
structure Ends (d : DisjointSets) (x : Nat) : Prop where
  leads : Leads d.parent x (d.find x).1
  redirects : Redirects (d.find x).1 d.parent x (d.find x).2.parent

namespace Sound

variable {d : DisjointSets} (hd : d.Sound)

include hd

/-- Redirecting a link leaves the rest of the way as long as it was, so that the elements of higher
rank bound this loop as well. -/
theorem redirects {fuel x : Nat} (hx : x < d.size) (hfuel : (d.above x).card ≤ fuel) :
    Redirects (d.root x) d.parent x (redirect (d.root x) fuel d.parent x) := by
  induction fuel generalizing d x with
  | zero =>
    have hself := hd.parentOf_eq_self (Nat.eq_zero_of_le_zero hfuel)
    exact .done (hself.trans (hd.root_eq_self hself).symm)
  | succ fuel ih =>
    unfold redirect
    by_cases hp : parentOf d.parent x = d.root x
    · simp only [hp, if_pos]
      exact .done hp
    · simp only [hp, if_false]
      have hne : parentOf d.parent x ≠ x := fun hself =>
        hp (hself.trans (hd.root_eq_self hself).symm)
      have hset := hd.sameRoots_set hx
      have habove : above { d with parent := d.parent.setIfInBounds x (d.root x) }
          (parentOf d.parent x) = d.above (parentOf d.parent x) := by
        unfold above
        rw [hset.size_eq]
      have hparent := hd.parent_lt x hx
      rw [← hset.size_eq] at hparent
      have hless := hd.card_above_lt hne
      rw [← habove] at hless
      have hrest := ih hset.sound hparent (by omega)
      rw [hset.root_eq, hd.root_parentOf] at hrest
      exact .link hp hrest

theorem ends {x : Nat} (hx : x < d.size) : d.Ends x :=
  ⟨hd.leads_root x, hd.redirects hx (d.card_above_le x)⟩

/-! ## Answers -/

section

variable {a b : Nat} (ha : a < d.size) (hb : b < d.size)

include ha

/-- A second `find` finds the root that was there before the first one. -/
theorem find_find : ((d.find a).2.find b).1 = d.root b := (hd.sameRoots_find ha).2.root_eq b

theorem same_eq_true_iff : (d.same a b).1 = true ↔ d.root a = d.root b := by
  unfold same
  show (d.root a == ((d.find a).2.find b).1) = true ↔ _
  rw [hd.find_find ha, beq_iff_eq]

theorem union_eq_false_iff : (d.union a b).1 = false ↔ d.root a = d.root b := by
  have hunion : (d.union a b).1 = !(d.same a b).1 := by
    unfold union same
    simp only
    split
    · next h => simp [h]
    · next h => simp [h]
  rw [hunion, Bool.not_eq_false', hd.same_eq_true_iff ha]

include hb

theorem sameRoots_same : d.SameRoots (d.same a b).2 := by
  have hfind := (hd.sameRoots_find ha).2
  exact hfind.trans (hfind.sound.sameRoots_find (hfind.size_eq.symm ▸ hb)).2

end

end Sound

/-! ## Calls -/

section

variable {d : DisjointSets} {a b : Nat} (ha : a < d.size) (hb : b < d.size)

include ha

theorem find?_of_lt : d.find? a = some (d.find a) := if_pos ha

include hb

theorem same?_of_lt : d.same? a b = some (d.same a b) := if_pos ⟨ha, hb⟩

theorem union?_of_lt : d.union? a b = some (d.union a b) := if_pos ⟨ha, hb⟩

end

/-- The unions among the calls connect two elements. -/
def Joined (calls : List Call) : Nat → Nat → Prop :=
  Relation.EqvGen fun x y => Call.union x y ∈ calls

theorem SameRoots.eqvGen {d d' : DisjointSets} (h : d.SameRoots d') (p : Nat → Nat → Prop)
    (x y : Nat) :
    Relation.EqvGen (fun x y => d'.root x = d'.root y ∨ p x y) x y ↔
      Relation.EqvGen (fun x y => d.root x = d.root y ∨ p x y) x y := by
  simp only [h.root_eq]

/-- A call is answered, and changes what is connected by its own union only. -/
theorem Sound.perform? {d : DisjointSets} (hd : d.Sound) {c : Call} (hc : c.Within d.size) :
    ∃ d', d.perform? c = some d' ∧ d'.Sound ∧ d'.size = d.size ∧ ∀ (p : Nat → Nat → Prop) x y,
      Relation.EqvGen (fun x y => d'.root x = d'.root y ∨ p x y) x y ↔
        Relation.EqvGen (fun x y => d.root x = d.root y ∨ .union x y = c ∨ p x y) x y := by
  cases c with
  | find x =>
    have hfind := (hd.sameRoots_find hc).2
    refine ⟨(d.find x).2, ?_, hfind.sound, hfind.size_eq, fun p y z => ?_⟩
    · rw [DisjointSets.perform?, find?_of_lt hc, Option.map_some]
    · simp only [reduceCtorEq, false_or]
      exact hfind.eqvGen p y z
  | same a b =>
    have hsame := hd.sameRoots_same hc.1 hc.2
    refine ⟨(d.same a b).2, ?_, hsame.sound, hsame.size_eq, fun p y z => ?_⟩
    · rw [DisjointSets.perform?, same?_of_lt hc.1 hc.2, Option.map_some]
    · simp only [reduceCtorEq, false_or]
      exact hsame.eqvGen p y z
  | union a b =>
    obtain ⟨hsound, hsize, -⟩ := hd.root_union hc.1 hc.2
    refine ⟨(d.union a b).2, ?_, hsound, hsize, fun p y z => ?_⟩
    · rw [DisjointSets.perform?, union?_of_lt hc.1 hc.2, Option.map_some]
    · simp only [Call.union.injEq]
      exact hd.eqvGen_union hc.1 hc.2 p y z

/-- Calls are answered, and in the end roots and their unions tell what is connected. -/
theorem Sound.performAll? {d : DisjointSets} (hd : d.Sound) {calls : List Call}
    (hcalls : ∀ c ∈ calls, c.Within d.size) :
    ∃ d', d.performAll? calls = some d' ∧ d'.Sound ∧ d'.size = d.size ∧ ∀ x y,
      d'.root x = d'.root y ↔
        Relation.EqvGen (fun x y => d.root x = d.root y ∨ .union x y ∈ calls) x y := by
  induction calls generalizing d with
  | nil => exact ⟨d, rfl, hd, rfl, fun x y => (d.eqvGen_root (fun _ _ => List.not_mem_nil) x y).symm⟩
  | cons c calls ih =>
    obtain ⟨d', hd', hsound, hsize, hconnect⟩ := hd.perform? (hcalls c List.mem_cons_self)
    obtain ⟨d'', hd'', hsound', hsize', hroot⟩ := ih hsound
      (fun c' hc' => hsize.symm ▸ hcalls c' (List.mem_cons_of_mem c hc'))
    refine ⟨d'', ?_, hsound', hsize'.trans hsize, fun x y => (hroot x y).trans ?_⟩
    · unfold DisjointSets.performAll? at hd'' ⊢
      rw [List.foldlM_cons, hd']
      exact hd''
    · simp only [List.mem_cons]
      exact hconnect _ x y

/-- After calls that begin with single elements, the elements with one root are those joined. -/
theorem root_eq_iff_joined {n : Nat} {calls : List Call} (hcalls : ∀ c ∈ calls, c.Within n) :
    ∃ d, (singletons n).performAll? calls = some d ∧ d.Sound ∧ d.size = n ∧
      ∀ x y, d.root x = d.root y ↔ Joined calls x y := by
  have hsize : (singletons n).size = n := Array.size_range
  rw [← hsize] at hcalls
  obtain ⟨d, hd, hsound, hsize', hroot⟩ := (sound_singletons n).performAll? hcalls
  refine ⟨d, hd, hsound, hsize'.trans hsize, fun x y => (hroot x y).trans ?_⟩
  simp only [root_singletons]
  constructor
  · refine eqvGen_map (f := id) fun x y h => ?_
    rcases h with rfl | h
    · exact .refl _
    · exact .rel _ _ h
  · exact eqvGen_map (f := id) fun x y h => .rel _ _ (.inr h)

/-- **Classes.**  Any calls of elements are answered.  After them every loop comes to its end, the
roots of two elements are the same exactly when the unions so far join them, `same` says so, `union`
says whether it joins what was not joined, and `find` moves no element to another root. -/
theorem classes_generated {n : Nat} {calls : List Call} (hcalls : ∀ c ∈ calls, c.Within n) :
    ∃ d, (singletons n).performAll? calls = some d ∧ ∀ a < n, ∀ b < n,
      (d.Ends a ∧ (d.find a).2.Ends b) ∧
      (∃ r d', d.find? a = some (r, d') ∧ (∀ x, d'.root x = d.root x) ∧
        ∃ r' d'', d'.find? b = some (r', d'') ∧ (r = r' ↔ Joined calls a b)) ∧
      (∃ joined d', d.same? a b = some (joined, d') ∧ (joined = true ↔ Joined calls a b)) ∧
      ∃ merged d', d.union? a b = some (merged, d') ∧ (merged = false ↔ Joined calls a b) := by
  obtain ⟨d, hd, hsound, rfl, hroot⟩ := root_eq_iff_joined hcalls
  refine ⟨d, hd, fun a ha b hb => ?_⟩
  have hfind := (hsound.sameRoots_find ha).2
  have hb' : b < (d.find a).2.size := hfind.size_eq.symm ▸ hb
  refine ⟨⟨hsound.ends ha, hfind.sound.ends hb'⟩, ?_, ?_, ?_⟩
  · refine ⟨(d.find a).1, _, find?_of_lt ha, hfind.root_eq, ((d.find a).2.find b).1, _,
      find?_of_lt hb', ?_⟩
    rw [hsound.find_find ha]
    exact hroot a b
  · exact ⟨_, _, same?_of_lt ha hb, (hsound.same_eq_true_iff ha).trans (hroot a b)⟩
  · exact ⟨_, _, union?_of_lt ha hb, (hsound.union_eq_false_iff ha).trans (hroot a b)⟩

/-- Two unions and one that joins their classes, with other calls in between. -/
def crossing : List Call := [.union 0 1, .find 1, .union 3 4, .same 2 0, .union 1 4, .find 3]

/-- The last union joins what the first two do not share; what no union names stays apart. -/
theorem crossing_classes : (∀ c ∈ crossing, c.Within 5) ∧
    ∃ d, (singletons 5).performAll? crossing = some d ∧ d.Ends 3 ∧
      Joined crossing 0 3 ∧ ¬ Joined crossing 2 0 := by
  have hcrossing : ∀ c ∈ crossing, c.Within 5 := by simp [crossing, Call.Within]
  obtain ⟨d, hd, hanswers⟩ := classes_generated hcrossing
  obtain ⟨⟨hends, -⟩, -, ⟨joined, d', hsame, hjoined⟩, -⟩ :=
    hanswers 3 (by decide) 0 (by decide)
  obtain ⟨-, -, -, merged, d'', hunion, hmerged⟩ := hanswers 2 (by decide) 0 (by decide)
  have hsame' : ((singletons 5).performAll? crossing).bind
      (fun d => (d.same? 3 0).map Prod.fst) = some true := by decide
  have hunion' : ((singletons 5).performAll? crossing).bind
      (fun d => (d.union? 2 0).map Prod.fst) = some true := by decide
  rw [hd, Option.bind_some, hsame] at hsame'
  rw [hd, Option.bind_some, hunion] at hunion'
  obtain rfl : joined = true := Option.some.inj hsame'
  obtain rfl : merged = true := Option.some.inj hunion'
  exact ⟨hcrossing, d, hd, hends, .symm _ _ (hjoined.1 rfl), fun h => absurd (hmerged.2 h) (by simp)⟩

end DisjointSets

end Cyclewise
