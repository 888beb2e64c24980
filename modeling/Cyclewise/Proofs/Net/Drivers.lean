import Cyclewise.Proofs.Net.Resolution

/-!
# The driver of a net

A net is contested when two blocks write it or two of its members drive it, that is, give it a value
(`contested_iff`).  A net that is not contested is driven by the one write to it if there is any,
and otherwise by the one constant in it if there is any.  A resolved design has no contested nets,
so this is how all its nets are driven (`Resolves.driven`).
-/

namespace Cyclewise

/-- A list has two items apart from repetition exactly when two of its items differ. -/
theorem one_lt_length_eraseDups {α : Type} [BEq α] [LawfulBEq α] {xs : List α} :
    1 < xs.eraseDups.length ↔ ∃ a ∈ xs, ∃ b ∈ xs, a ≠ b := by
  constructor
  · intro h
    refine ⟨xs.eraseDups[0], List.mem_eraseDups.1 (List.getElem_mem _), xs.eraseDups[1],
      List.mem_eraseDups.1 (List.getElem_mem _), fun heq => ?_⟩
    exact absurd ((nodup_eraseDups xs).getElem_inj_iff.1 heq) zero_ne_one
  · rintro ⟨a, ha, b, hb, hne⟩
    by_contra h
    exact hne (eq_of_mem_of_length_le h (List.mem_eraseDups.2 ha) (List.mem_eraseDups.2 hb))

/-- The signal is declared as a constant. -/
def SignalTable.IsConst (t : SignalTable) (s : SignalId) (v : UInt64) : Prop :=
  ∃ d, t.get? s = some d ∧ d.kind = .const v

theorem SignalTable.Extends.isConst_iff {t t' : SignalTable} (h : t'.Extends t) {s : SignalId}
    (hs : s.index < t.size) {v : UInt64} : t'.IsConst s v ↔ t.IsConst s v := by
  unfold IsConst
  rw [h.get?_eq hs]

namespace Wiring

variable {w : Wiring} {n : NetId} {b : BlockId} {s k : SignalId} {v : UInt64}

theorem mem_constants :
    (k, v) ∈ w.constants n ↔ k ∈ w.partition.membersOf n ∧ w.signals.IsConst k v := by
  have hconst : ((w.signals.get? k).bind fun d => d.kind.constValue?) = some v ↔
      w.signals.IsConst k v := by
    rw [Option.bind_eq_some_iff]
    refine exists_congr fun d => and_congr_right fun _ => ?_
    cases d.kind with
    | inPort | outPort | wire => simp [SignalKind.constValue?]
    | const value => simp [SignalKind.constValue?]
  unfold constants
  rw [List.mem_filterMap, ← hconst]
  constructor
  · rintro ⟨s, hs, h⟩
    obtain ⟨v', hv', h⟩ := Option.map_eq_some_iff.1 h
    obtain ⟨rfl, rfl⟩ := Prod.mk.inj h
    exact ⟨hs, hv'⟩
  · rintro ⟨hs, hv⟩
    exact ⟨k, hs, by rw [hv, Option.map_some]⟩

theorem mem_driving :
    s ∈ w.driving n ↔ (∃ b, (b, s) ∈ w.claims n) ∨ ∃ v, (s, v) ∈ w.constants n := by
  unfold driving
  rw [List.mem_eraseDups, List.mem_append, List.mem_map, List.mem_map]
  simp

theorem contested_iff :
    w.contested n = true ↔ (∃ b ∈ w.claimants n, ∃ b' ∈ w.claimants n, b ≠ b') ∨
      ∃ s ∈ w.driving n, ∃ s' ∈ w.driving n, s ≠ s' := by
  unfold contested
  rw [Bool.or_eq_true, decide_eq_true_iff, decide_eq_true_iff]
  unfold claimants driving
  rw [one_lt_length_eraseDups, one_lt_length_eraseDups]
  simp only [List.mem_eraseDups]

/-! ## Nets that are not contested -/

section

variable (h : w.contested n = false)

include h

/-- At most one member is driving. -/
theorem driving_unique {s s' : SignalId} (hs : s ∈ w.driving n) (hs' : s' ∈ w.driving n) :
    s = s' := by
  by_contra hne
  rw [contested_iff.2 (.inr ⟨s, hs, s', hs', hne⟩)] at h
  cases h

/-- At most one block writes at most one member. -/
theorem claim_unique {p q : BlockId × SignalId} (hp : p ∈ w.claims n) (hq : q ∈ w.claims n) :
    p = q := by
  have hclaimant : ∀ {p : BlockId × SignalId}, p ∈ w.claims n → p.1 ∈ w.claimants n :=
    fun hp => List.mem_eraseDups.2 (List.mem_map_of_mem hp)
  have hdriving : ∀ {p : BlockId × SignalId}, p ∈ w.claims n → p.2 ∈ w.driving n :=
    fun {p} hp => mem_driving.2 (.inl ⟨p.1, hp⟩)
  exact Prod.ext (claimant_unique h (hclaimant hp) (hclaimant hq))
    (driving_unique h (hdriving hp) (hdriving hq))

/-- At most one member is constant. -/
theorem constant_unique {p q : SignalId × UInt64} (hp : p ∈ w.constants n)
    (hq : q ∈ w.constants n) : p = q := by
  obtain ⟨s, v⟩ := p
  obtain ⟨s', v'⟩ := q
  obtain rfl := driving_unique h (mem_driving.2 (.inr ⟨v, hp⟩)) (mem_driving.2 (.inr ⟨v', hq⟩))
  obtain ⟨-, d, hd, hv⟩ := mem_constants.1 hp
  obtain ⟨-, d', hd', hv'⟩ := mem_constants.1 hq
  obtain rfl := Option.some.inj (hd.symm.trans hd')
  obtain rfl := SignalKind.const.inj (hv.symm.trans hv')
  rfl

theorem driver?_eq_block : w.driver? n = some (.block b s) ↔ (b, s) ∈ w.claims n := by
  have hunique : ∀ p ∈ w.claims n, (b, s) ∈ w.claims n → (b, s) = p := fun p hp hbs =>
    claim_unique h hbs hp
  unfold driver?
  generalize w.claims n = claims at hunique ⊢
  cases claims with
  | nil => simp
  | cons p rest =>
    constructor
    · intro hdriver
      obtain ⟨rfl, rfl⟩ := Driver.block.inj (Option.some.inj hdriver)
      exact List.mem_cons_self
    · intro hbs
      obtain rfl := hunique p List.mem_cons_self hbs
      rfl

theorem driver?_eq_const :
    w.driver? n = some (.const s v) ↔ w.claims n = [] ∧ (s, v) ∈ w.constants n := by
  have hunique : ∀ p ∈ w.constants n, (s, v) ∈ w.constants n → (s, v) = p := fun p hp hsv =>
    constant_unique h hsv hp
  unfold driver?
  generalize w.claims n = claims
  generalize w.constants n = constants at hunique ⊢
  cases claims with
  | cons p rest => simp
  | nil =>
    cases constants with
    | nil => simp
    | cons p rest =>
      constructor
      · intro hdriver
        obtain ⟨rfl, rfl⟩ := Driver.const.inj (Option.some.inj hdriver)
        exact ⟨rfl, List.mem_cons_self⟩
      · rintro ⟨-, hsv⟩
        obtain rfl := hunique p List.mem_cons_self hsv
        rfl

end

theorem driver?_eq_none : w.driver? n = none ↔ w.claims n = [] ∧ w.constants n = [] := by
  unfold driver?
  rcases w.claims n with _ | ⟨⟨b', s'⟩, rest⟩
  · simp
  · simp

/-! ## The wiring of a design -/

section

variable {signals : SignalTable} {connections : List Connection} {x : Extraction}

theorem mem_claims_ofDesign :
    (b, s) ∈ (ofDesign signals connections x).claims n ↔
      x.Writes b s ∧ (Partition.ofConnections signals.size connections).net? s = some n := by
  rw [mem_claims]
  constructor
  · rintro ⟨access, hb, hs, hn⟩
    exact ⟨⟨access, Extraction.mem_blocks.1 hb, hs⟩, hn⟩
  · rintro ⟨⟨access, hb, hs⟩, hn⟩
    exact ⟨access, Extraction.mem_blocks.2 hb, hs, hn⟩

theorem mem_constants_ofDesign :
    (s, v) ∈ (ofDesign signals connections x).constants n ↔ signals.IsConst s v ∧
      (Partition.ofConnections signals.size connections).net? s = some n :=
  mem_constants.trans (and_comm.trans (and_congr_right fun _ => Partition.mem_membersOf))

end

end Wiring

/-- What drives the nets of a design: the only write to a member, or else the only constant member,
or else nothing. -/
structure Driven (signals : SignalTable) (x : Extraction) (nets : NetMap) : Prop where
  block : ∀ {n b s}, nets.driver n = some (.block b s) ↔ x.Writes b s ∧ nets.net? s = some n
  const : ∀ {n s v}, nets.driver n = some (.const s v) ↔
    (∀ b t, x.Writes b t → nets.net? t ≠ some n) ∧ signals.IsConst s v ∧ nets.net? s = some n
  none : ∀ {n}, nets.driver n = none ↔
    (∀ b t, x.Writes b t → nets.net? t ≠ some n) ∧
      ∀ s v, signals.IsConst s v → nets.net? s ≠ some n

namespace Resolves

variable {signals : SignalTable} {connections : List Connection} {x : Extraction} {nets : NetMap}
  (h : Resolves signals connections x nets)

include h

theorem driver_eq {n : NetId} (hn : n.index < nets.size) :
    nets.driver n = (Wiring.ofDesign signals connections x).driver? n := by
  unfold NetMap.driver
  rw [h.get_eq hn]
  rfl

theorem not_contested {n : NetId} (hn : n.index < nets.size) :
    (Wiring.ofDesign signals connections x).contested n = false :=
  (Wiring.checks_of_conflicts h.conflicts (Partition.mem_ids.2 (h.size_eq ▸ hn))).1

theorem mem_claims {n : NetId} {b : BlockId} {s : SignalId} :
    (b, s) ∈ (Wiring.ofDesign signals connections x).claims n ↔
      x.Writes b s ∧ nets.net? s = some n := by
  rw [Wiring.mem_claims_ofDesign, h.net?_eq]

theorem mem_constants {n : NetId} {s : SignalId} {v : UInt64} :
    (s, v) ∈ (Wiring.ofDesign signals connections x).constants n ↔
      signals.IsConst s v ∧ nets.net? s = some n := by
  rw [Wiring.mem_constants_ofDesign, h.net?_eq]

theorem claims_eq_nil {n : NetId} :
    (Wiring.ofDesign signals connections x).claims n = [] ↔
      ∀ b t, x.Writes b t → nets.net? t ≠ some n := by
  simp only [List.eq_nil_iff_forall_not_mem, Prod.forall, h.mem_claims, not_and, ne_eq]

theorem constants_eq_nil {n : NetId} :
    (Wiring.ofDesign signals connections x).constants n = [] ↔
      ∀ s v, signals.IsConst s v → nets.net? s ≠ some n := by
  simp only [List.eq_nil_iff_forall_not_mem, Prod.forall, h.mem_constants, not_and, ne_eq]

theorem driven : Driven signals x nets := by
  have hout : ∀ {n : NetId}, ¬ n.index < nets.size → nets.driver n = none := fun hn => by
    unfold NetMap.driver
    rw [NetMap.get_of_le (Nat.le_of_not_lt hn)]
    rfl
  refine ⟨fun {n b s} => ?_, fun {n s v} => ?_, fun {n} => ?_⟩
  · by_cases hn : n.index < nets.size
    · rw [h.driver_eq hn, Wiring.driver?_eq_block (h.not_contested hn), h.mem_claims]
    · rw [hout hn]
      exact iff_of_false (by simp) fun hs => hn (h.index_lt_size hs.2)
  · by_cases hn : n.index < nets.size
    · rw [h.driver_eq hn, Wiring.driver?_eq_const (h.not_contested hn), h.claims_eq_nil,
        h.mem_constants]
    · rw [hout hn]
      exact iff_of_false (by simp) fun hs => hn (h.index_lt_size hs.2.2)
  · by_cases hn : n.index < nets.size
    · rw [h.driver_eq hn, Wiring.driver?_eq_none, h.claims_eq_nil, h.constants_eq_nil]
    · refine iff_of_true (hout hn) ⟨fun b t _ ht => ?_, fun s v _ hs => ?_⟩
      · exact hn (h.index_lt_size ht)
      · exact hn (h.index_lt_size hs)

end Resolves

end Cyclewise
