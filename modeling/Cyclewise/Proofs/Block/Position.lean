import Mathlib.Data.List.Sort
import Cyclewise.Block.Body

/-!
# Places in the text of a body

A `Position` leads to a statement from the outside in, through arms of conditionals and never into a
loop.  `find?` looks up the statement that stands there, and `Before` is the order of the text.
A `Listing` of some kind of statements holds just these, with their positions, in the order of the
text; `listing` makes one for every kind (`listing_spec`).
-/

namespace Cyclewise

/-- The arms of a conditional. -/
inductive Arm where
  | thenArm
  | elseArm
deriving DecidableEq

namespace Stmt

/-- The statements in an arm; only conditionals have arms. -/
def arm : Stmt → Arm → List Stmt
  | branch _ thenArm _ _, .thenArm => thenArm
  | branch _ _ elseArm _, .elseArm => elseArm
  | _, _ => []

end Stmt

/-- Where a statement stands among statements: by its number, or further inside. -/
inductive Position where
  | here (i : Nat)
  /-- In an arm of the conditional with this number. -/
  | inArm (i : Nat) (arm : Arm) (rest : Position)
deriving DecidableEq

namespace Position

/-- The number of the outermost statement that a position leads to or into. -/
def index : Position → Nat
  | here i => i
  | inArm i _ _ => i

/-- The statement at a position. -/
def find? : Position → List Stmt → Option Stmt
  | here i, body => body[i]?
  | inArm i arm rest, body => (body[i]?).bind fun s => rest.find? (s.arm arm)

/-- The order of the text: a conditional comes before its arms, and the then arm before the else
arm. -/
inductive Before : Position → Position → Prop where
  | index {p q : Position} (h : p.index < q.index) : Before p q
  | enter {i : Nat} {arm : Arm} {rest : Position} : Before (here i) (inArm i arm rest)
  | arms {i : Nat} {p q : Position} : Before (inArm i .thenArm p) (inArm i .elseArm q)
  | inside {i : Nat} {arm : Arm} {p q : Position} (h : Before p q) :
    Before (inArm i arm p) (inArm i arm q)

theorem Before.index_le {p q : Position} (h : p.Before q) : p.index ≤ q.index := by
  cases h with
  | index h => exact Nat.le_of_lt h
  | enter | arms | inside => exact Nat.le_refl _

theorem Before.asymm {p q : Position} (h : p.Before q) : ¬ q.Before p := by
  induction h with
  | index h =>
    intro h'
    have := h'.index_le
    omega
  | enter =>
    intro h'
    cases h' with
    | index h' => exact Nat.lt_irrefl _ h'
  | arms =>
    intro h'
    cases h' with
    | index h' => exact Nat.lt_irrefl _ h'
  | inside _ ih =>
    intro h'
    cases h' with
    | index h' => exact Nat.lt_irrefl _ h'
    | inside h' => exact ih h'

end Position

/-- `found` lists the statements of a body for which `f` is defined, with what it gives, in the order
of the text. -/
structure Listing {α : Type} (f : Stmt → Option α) (body : List Stmt)
    (found : List (Position × α)) : Prop where
  mem : ∀ p a, (p, a) ∈ found ↔ ∃ s, p.find? body = some s ∧ f s = some a
  ordered : found.Pairwise (·.1.Before ·.1)

/-- A kind of statements has one listing. -/
theorem Listing.unique {α : Type} {f : Stmt → Option α} {body : List Stmt}
    {found found' : List (Position × α)} (h : Listing f body found) (h' : Listing f body found') :
    found = found' := by
  have : Std.Asymm fun q q' : Position × α => q.1.Before q'.1 :=
    ⟨fun _ _ => Position.Before.asymm⟩
  refine h.ordered.eq_of_mem_iff h'.ordered fun q => ?_
  rw [show q = (q.1, q.2) from rfl, h.mem, h'.mem]

namespace Stmt

/-- The position of something in an arm, seen from outside. -/
def enter {α : Type} (i : Nat) (arm : Arm) (q : Position × α) : Position × α :=
  (.inArm i arm q.1, q.2)

mutual

/-- A statement with the number `i`, and all in its arms, with their positions. -/
def places (i : Nat) : Stmt → List (Position × Stmt)
  | branch test thenArm elseArm span =>
    (.here i, branch test thenArm elseArm span) ::
      ((placesAll 0 thenArm).map (enter i .thenArm) ++ (placesAll 0 elseArm).map (enter i .elseArm))
  | s => [(.here i, s)]

/-- Statements with numbers from `i` on, and all in their arms, with their positions. -/
def placesAll (i : Nat) : List Stmt → List (Position × Stmt)
  | [] => []
  | s :: rest => places i s ++ placesAll (i + 1) rest

end

/-- Those of some statements for which `f` is defined, with what it gives. -/
def pick {α : Type} (f : Stmt → Option α) (found : List (Position × Stmt)) : List (Position × α) :=
  found.filterMap fun q => (f q.2).map (q.1, ·)

/-- The statements of a body for which `f` is defined, with their positions and what it gives. -/
def listing {α : Type} (f : Stmt → Option α) (body : List Stmt) : List (Position × α) :=
  pick f (placesAll 0 body)

theorem pick_append {α : Type} (f : Stmt → Option α) (found found' : List (Position × Stmt)) :
    pick f (found ++ found') = pick f found ++ pick f found' :=
  List.filterMap_append

/-- Where statements stand does not matter to what is picked. -/
theorem pick_enter {α : Type} (f : Stmt → Option α) (i : Nat) (arm : Arm)
    (found : List (Position × Stmt)) :
    pick f (found.map (enter i arm)) = (pick f found).map (enter i arm) := by
  unfold pick
  rw [List.filterMap_map, List.map_filterMap]
  refine congrArg (List.filterMap · found) (funext fun q => ?_)
  exact (Option.map_map (enter i arm) (q.1, ·) (f q.2)).symm

/-! ## What stands where -/

theorem places_eq (i : Nat) (s : Stmt) : s.places i = (.here i, s) ::
    ((placesAll 0 (s.arm .thenArm)).map (enter i .thenArm) ++
      (placesAll 0 (s.arm .elseArm)).map (enter i .elseArm)) := by
  cases s with
  | branch test thenArm elseArm span => rw [places]; rfl
  | _ => rfl

theorem mem_places {i : Nat} {s s' : Stmt} {p : Position} : (p, s') ∈ s.places i ↔
    (p = .here i ∧ s' = s) ∨
      ∃ arm rest, p = .inArm i arm rest ∧ (rest, s') ∈ placesAll 0 (s.arm arm) := by
  rw [places_eq]
  simp only [enter, List.mem_cons, List.mem_append, List.mem_map, Prod.mk.injEq, Prod.exists]
  constructor
  · rintro (h | ⟨rest, _, hmem, rfl, rfl⟩ | ⟨rest, _, hmem, rfl, rfl⟩)
    · exact .inl h
    · exact .inr ⟨.thenArm, rest, rfl, hmem⟩
    · exact .inr ⟨.elseArm, rest, rfl, hmem⟩
  · rintro (h | ⟨arm, rest, rfl, hmem⟩)
    · exact .inl h
    · cases arm with
      | thenArm => exact .inr (.inl ⟨rest, s', hmem, rfl, rfl⟩)
      | elseArm => exact .inr (.inr ⟨rest, s', hmem, rfl, rfl⟩)

theorem here_mem_places (i : Nat) (s : Stmt) : (.here i, s) ∈ s.places i :=
  mem_places.2 (.inl ⟨rfl, rfl⟩)

theorem index_of_mem_places {i : Nat} {s : Stmt} {q : Position × Stmt} (hq : q ∈ s.places i) :
    q.1.index = i := by
  rcases mem_places.1 hq with ⟨h, -⟩ | ⟨arm, rest, h, -⟩
  · rw [h]
    rfl
  · rw [h]
    rfl

theorem mem_placesAll {i : Nat} {body : List Stmt} {p : Position} {s : Stmt} :
    (p, s) ∈ placesAll i body ↔
      i ≤ p.index ∧ ∃ s', body[p.index - i]? = some s' ∧ (p, s) ∈ s'.places p.index := by
  induction body generalizing i with
  | nil => simp [placesAll]
  | cons s₀ rest ih =>
    rw [placesAll, List.mem_append, ih]
    constructor
    · rintro (hmem | ⟨hle, s', hs', hmem⟩)
      · have hindex := index_of_mem_places hmem
        subst hindex
        exact ⟨Nat.le_refl _, s₀, by simp, hmem⟩
      · refine ⟨by omega, s', ?_, hmem⟩
        rwa [show p.index - i = (p.index - (i + 1)) + 1 by omega, List.getElem?_cons_succ]
    · rintro ⟨hle, s', hs', hmem⟩
      rcases Nat.eq_or_lt_of_le hle with rfl | hlt
      · rw [Nat.sub_self, List.getElem?_cons_zero] at hs'
        rw [Option.some.inj hs']
        exact .inl hmem
      · refine .inr ⟨hlt, s', ?_, hmem⟩
        rwa [show p.index - i = (p.index - (i + 1)) + 1 by omega, List.getElem?_cons_succ] at hs'

/-- The places of a body are those where a statement is found. -/
theorem mem_placesAll_zero {body : List Stmt} {p : Position} {s : Stmt} :
    (p, s) ∈ placesAll 0 body ↔ p.find? body = some s := by
  induction p generalizing body with
  | here i =>
    rw [mem_placesAll]
    simp [Position.find?, Position.index, mem_places, eq_comm]
  | inArm i arm rest ih =>
    rw [mem_placesAll, Position.find?, Option.bind_eq_some_iff]
    simp only [Position.index, Nat.zero_le, Nat.sub_zero, true_and, mem_places, reduceCtorEq,
      false_and, false_or, Position.inArm.injEq]
    refine exists_congr fun s' => and_congr_right fun _ => ⟨?_, fun hfind => ?_⟩
    · rintro ⟨arm', rest', ⟨rfl, rfl⟩, hmem⟩
      exact ih.1 hmem
    · exact ⟨arm, rest, ⟨rfl, rfl⟩, ih.2 hfind⟩

theorem exists_mem_placesAll {body : List Stmt} {P : Stmt → Prop} :
    (∃ q ∈ placesAll 0 body, P q.2) ↔ ∃ p s, Position.find? p body = some s ∧ P s := by
  simp only [Prod.exists, mem_placesAll_zero]

mutual

theorem pairwise_places (i : Nat) :
    ∀ s : Stmt, (s.places i).Pairwise (·.1.Before ·.1)
  | .branch test thenArm elseArm span => by
    rw [places, List.pairwise_cons, List.pairwise_append, List.pairwise_map, List.pairwise_map]
    refine ⟨fun q hq => ?_, (pairwise_placesAll 0 thenArm).imp .inside,
      (pairwise_placesAll 0 elseArm).imp .inside, fun q hq q' hq' => ?_⟩
    · rcases List.mem_append.1 hq with hq | hq
      · obtain ⟨r, -, rfl⟩ := List.mem_map.1 hq
        exact .enter
      · obtain ⟨r, -, rfl⟩ := List.mem_map.1 hq
        exact .enter
    · obtain ⟨r, -, rfl⟩ := List.mem_map.1 hq
      obtain ⟨r', -, rfl⟩ := List.mem_map.1 hq'
      exact .arms
  | .assign .. | .update .. | .bind .. | .eval .. | .forLoop .. | .whileLoop .. | .pass .. =>
    List.pairwise_singleton _ _

theorem pairwise_placesAll (i : Nat) :
    ∀ body : List Stmt, (placesAll i body).Pairwise (·.1.Before ·.1)
  | [] => List.Pairwise.nil
  | s :: rest => by
    rw [placesAll, List.pairwise_append]
    refine ⟨pairwise_places i s, pairwise_placesAll (i + 1) rest, fun q hq q' hq' => .index ?_⟩
    have hq := index_of_mem_places hq
    have hq' := (mem_placesAll.1 (show (q'.1, q'.2) ∈ _ from hq')).1
    omega

end

theorem listing_spec {α : Type} (f : Stmt → Option α) (body : List Stmt) :
    Listing f body (listing f body) where
  mem := by
    intro p a
    unfold listing pick
    rw [List.mem_filterMap]
    constructor
    · rintro ⟨⟨p', s⟩, hmem, heq⟩
      obtain ⟨a', ha, heq⟩ := Option.map_eq_some_iff.1 heq
      obtain ⟨rfl, rfl⟩ := Prod.mk.inj heq
      exact ⟨s, mem_placesAll_zero.1 hmem, ha⟩
    · rintro ⟨s, hfind, ha⟩
      exact ⟨(p, s), mem_placesAll_zero.2 hfind, by rw [ha]; rfl⟩
  ordered := by
    unfold listing pick
    rw [List.pairwise_filterMap]
    refine (pairwise_placesAll 0 body).imp fun {q q'} hbefore r hr r' hr' => ?_
    obtain ⟨_, -, rfl⟩ := Option.map_eq_some_iff.1 hr
    obtain ⟨_, -, rfl⟩ := Option.map_eq_some_iff.1 hr'
    exact hbefore

end Stmt

end Cyclewise
