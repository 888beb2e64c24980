import Cyclewise.Block.Stock
import Cyclewise.Proofs.Elaboration
import Cyclewise.Proofs.Net.Resolution

/-!
# The numbering of nets

Classes are numbered by the first occurrences of their roots, that is, by their smallest members
(`Partition.head_ascend`).  Which member is the root of a class does not show: another choice of
roots is the same list under a map that is one to one on roots (`Partition.ofRoots_map`).  So lists
of connections that join the same signals resolve alike (`resolve_canonical`).
-/

namespace Cyclewise

/-! ## First occurrences -/

section

variable {α : Type} [BEq α] [LawfulBEq α]

/-- Some occurrence of `a` comes before all of `b`. -/
def OccursBefore (xs : List α) (a b : α) : Prop :=
  ∃ before after, xs = before ++ a :: after ∧ b ∉ a :: before

/-- Without repetition, items stand in the order of their first occurrences. -/
theorem pairwise_eraseDups (xs : List α) : xs.eraseDups.Pairwise (OccursBefore xs) := by
  induction xs using eraseDups_induction with
  | nil => exact List.Pairwise.nil
  | cons c rest ih =>
    have hne : ∀ b ∈ (rest.filter fun b => !b == c).eraseDups, b ≠ c := fun b hb => by
      simpa using (List.mem_filter.1 (List.mem_eraseDups.1 hb)).2
    rw [List.eraseDups_cons, List.pairwise_cons]
    refine ⟨fun b hb => ⟨[], rest, rfl, by simpa using hne b hb⟩, ih.imp_of_mem ?_⟩
    rintro a b - hb ⟨before, after, hfilter, hbefore⟩
    obtain ⟨xs, ys, rfl, rfl, hys⟩ := List.filter_eq_append_iff.1 hfilter
    obtain ⟨skipped, zs, rfl, hskipped, -, -⟩ := List.filter_eq_cons_iff.1 hys
    -- what the filter leaves out is `c`, and so it is no `b`
    have hkeep : (!b == c) = true := by simpa using hne b hb
    rw [List.mem_cons, List.mem_filter, not_or, not_and] at hbefore
    refine ⟨c :: xs ++ skipped, zs, by simp, ?_⟩
    rw [List.mem_cons, List.mem_append, List.mem_cons]
    rintro (h | (h | h) | h)
    · exact hbefore.1 h
    · exact hne b hb h
    · exact hbefore.2 h hkeep
    · exact hskipped b h hkeep

/-- A map that is one to one on a list keeps the first occurrences. -/
theorem eraseDups_map {β : Type} [BEq β] [LawfulBEq β] {f : α → β} {xs : List α}
    (hf : ∀ a ∈ xs, ∀ b ∈ xs, f a = f b → a = b) : (xs.map f).eraseDups = xs.eraseDups.map f := by
  induction xs using eraseDups_induction with
  | nil => rfl
  | cons c rest ih =>
    have hfilter : (rest.map f).filter (fun b => !b == f c) =
        (rest.filter fun b => !b == c).map f := by
      rw [List.filter_map]
      refine congrArg (List.map f) (List.filter_congr fun a ha => ?_)
      have hiff : f a = f c ↔ a = c :=
        ⟨hf a (List.mem_cons_of_mem c ha) c List.mem_cons_self, congrArg f⟩
      rw [Function.comp_apply, Bool.eq_iff_iff, Bool.not_eq_true', Bool.not_eq_true',
        beq_eq_false_iff_ne, beq_eq_false_iff_ne]
      exact not_congr hiff
    rw [List.map_cons, List.eraseDups_cons, List.eraseDups_cons, hfilter, ih, List.map_cons]
    intro a ha b hb
    exact hf a (List.mem_cons_of_mem c (List.mem_of_mem_filter ha)) b
      (List.mem_cons_of_mem c (List.mem_of_mem_filter hb))

theorem idxOf_map {β : Type} [BEq β] [LawfulBEq β] {f : α → β} {xs : List α} {a : α}
    (hf : ∀ b ∈ xs, f b = f a → b = a) : (xs.map f).idxOf (f a) = xs.idxOf a := by
  induction xs with
  | nil => rfl
  | cons c rest ih =>
    have hrest := ih fun b hb => hf b (List.mem_cons_of_mem c hb)
    have hiff : f c = f a ↔ c = a := ⟨hf c List.mem_cons_self, congrArg f⟩
    have hbeq : (f c == f a) = (c == a) := by
      rw [Bool.eq_iff_iff, beq_iff_eq, beq_iff_eq]
      exact hiff
    rw [List.map_cons, List.idxOf_cons, List.idxOf_cons, hrest, hbeq]

end

namespace Partition

variable {roots : List Nat} {n m : NetId}

/-! ## Numbers -/

theorem mem_classes_of_lt (h : n.index < (ofRoots roots).size) :
    ∃ r, roots.eraseDups[n.index]? = some r := by
  have hlt : n.index < roots.eraseDups.length := by simpa [ofRoots, size] using h
  exact ⟨_, List.getElem?_eq_getElem hlt⟩

/-- Every number is taken. -/
theorem exists_net?_eq (h : n.index < (ofRoots roots).size) :
    ∃ s, (ofRoots roots).net? s = some n := by
  obtain ⟨r, hr⟩ := mem_classes_of_lt h
  obtain ⟨i, hi⟩ := List.mem_iff_getElem?.1 (List.mem_eraseDups.1 (List.mem_of_getElem? hr))
  exact ⟨⟨i⟩, net?_ofRoots_eq_some.2 ⟨r, hi, hr⟩⟩

theorem membersOf_ascend (roots : List Nat) (n : NetId) :
    ((ofRoots roots).membersOf n).Pairwise (·.index < ·.index) := by
  have hindices : (roots.zipIdx.map Prod.snd).Pairwise (· < ·) := by
    rw [List.zipIdx_map_snd]
    exact List.pairwise_lt_range'
  unfold membersOf ofRoots
  simp only [Array.getD_eq_getD_getElem?, List.getElem?_toArray, List.getElem?_map]
  cases roots.eraseDups[n.index]? with
  | none => exact List.Pairwise.nil
  | some r => exact List.pairwise_map.2 ((List.pairwise_map.1 hindices).filter _)

/-- Some member of a class comes before all members of the classes with greater numbers. -/
theorem exists_member_lt (h : n.index < m.index) (hm : m.index < (ofRoots roots).size) :
    ∃ s, (ofRoots roots).net? s = some n ∧
      ∀ t, (ofRoots roots).net? t = some m → s.index < t.index := by
  obtain ⟨r, hr⟩ := mem_classes_of_lt (Nat.lt_trans h hm)
  obtain ⟨r', hr'⟩ := mem_classes_of_lt hm
  have hoccurs : OccursBefore roots r r' := by
    obtain ⟨hlt, rfl⟩ := List.getElem?_eq_some_iff.1 hr
    obtain ⟨hlt', rfl⟩ := List.getElem?_eq_some_iff.1 hr'
    exact List.pairwise_iff_getElem.1 (pairwise_eraseDups roots) _ _ hlt hlt' h
  obtain ⟨before, after, hroots, hnot⟩ := hoccurs
  have hfirst : roots[before.length]? = some r := by
    rw [hroots, List.getElem?_append_right (Nat.le_refl _), Nat.sub_self, List.getElem?_cons_zero]
  refine ⟨⟨before.length⟩, net?_ofRoots_eq_some.2 ⟨r, hfirst, hr⟩, fun t ht => ?_⟩
  obtain ⟨r'', ht, hr''⟩ := net?_ofRoots_eq_some.1 ht
  obtain rfl := Option.some.inj (hr'.symm.trans hr'')
  by_contra hle
  rcases Nat.lt_or_eq_of_le (Nat.le_of_not_lt hle) with hlt | heq
  · rw [hroots, List.getElem?_append_left hlt] at ht
    exact hnot (List.mem_cons_of_mem r (List.mem_of_getElem? ht))
  · rw [heq, hfirst] at ht
    exact hnot (Option.some.inj ht ▸ List.mem_cons_self)

/-- An ascending list starts with its smallest item. -/
theorem exists_head_le {ss : List SignalId} (hss : ss.Pairwise (·.index < ·.index)) {s : SignalId}
    (hs : s ∈ ss) : ∃ s₀ ∈ ss, ss.head? = some s₀ ∧ s₀.index ≤ s.index := by
  cases ss with
  | nil => cases hs
  | cons s₀ rest =>
    refine ⟨s₀, List.mem_cons_self, rfl, ?_⟩
    rcases List.mem_cons.1 hs with rfl | hs
    · exact Nat.le_refl _
    · exact Nat.le_of_lt (List.rel_of_pairwise_cons hss hs)

/-- Of two classes, the one with the smaller number has the smaller first member. -/
theorem head_ascend (h : n.index < m.index) (hm : m.index < (ofRoots roots).size) :
    ∃ s t, ((ofRoots roots).membersOf n).head? = some s ∧
      ((ofRoots roots).membersOf m).head? = some t ∧ s.index < t.index := by
  obtain ⟨s, hs, hlt⟩ := exists_member_lt h hm
  obtain ⟨t, ht⟩ := exists_net?_eq hm
  rw [← mem_membersOf_ofRoots] at hs ht
  obtain ⟨s₀, -, hs₀, hle⟩ := exists_head_le (membersOf_ascend roots n) hs
  obtain ⟨t₀, hmem, ht₀, -⟩ := exists_head_le (membersOf_ascend roots m) ht
  exact ⟨s₀, t₀, hs₀, ht₀, Nat.lt_of_le_of_lt hle (hlt t₀ (mem_membersOf_ofRoots.1 hmem))⟩

/-! ## The choice of roots -/

/-- Roots that are renamed one to one give the same classes. -/
theorem ofRoots_map {f : Nat → Nat} (hf : ∀ r ∈ roots, ∀ r' ∈ roots, f r = f r' → r = r') :
    ofRoots (roots.map f) = ofRoots roots := by
  have hclasses : ∀ r ∈ roots.eraseDups, r ∈ roots := fun r => List.mem_eraseDups.1
  unfold ofRoots
  simp only [eraseDups_map hf, List.map_map, Partition.mk.injEq]
  constructor
  · refine congrArg List.toArray (List.map_congr_left fun r hr => congrArg NetId.mk ?_)
    exact idxOf_map fun r' hr' => hf r' (hclasses r' hr') r hr
  · refine congrArg List.toArray (List.map_congr_left fun r hr => ?_)
    have hmembers : ((roots.map f).zipIdx.filter fun p => p.1 = f r) =
        (roots.zipIdx.filter fun p => p.1 = r).map (Prod.map f id) := by
      rw [List.zipIdx_map, List.filter_map]
      refine congrArg _ (List.filter_congr fun p hp => decide_eq_decide.2 ?_)
      have hp : p.1 ∈ roots := List.mem_of_getElem? (List.mem_zipIdx_iff_getElem?.1 hp)
      exact ⟨hf p.1 hp r (hclasses r hr), congrArg f⟩
    exact (congrArg (List.map fun p => SignalId.mk p.2) hmembers).trans List.map_map

/-- Disjoint sets that put the same elements together give the same classes, whatever their
roots. -/
theorem ofRoots_congr {sets sets' : DisjointSets} (hsets : sets.Sound)
    (h : ∀ i j, sets.root i = sets.root j ↔ sets'.root i = sets'.root j) (is : List Nat) :
    ofRoots (is.map sets.root) = ofRoots (is.map sets'.root) := by
  -- each root is renamed to the other root of its class
  have hrename : is.map sets'.root = (is.map sets.root).map sets'.root := by
    rw [List.map_map]
    refine List.map_congr_left fun i _ => ?_
    exact (h _ _).1 (hsets.root_root i).symm
  rw [hrename]
  refine (ofRoots_map fun r hr r' hr' heq => ?_).symm
  obtain ⟨i, -, rfl⟩ := List.mem_map.1 hr
  obtain ⟨j, -, rfl⟩ := List.mem_map.1 hr'
  rw [← hsets.root_root i, ← hsets.root_root j]
  exact (h _ _).2 heq

/-- Only which signals are connected counts. -/
theorem ofConnections_congr {size : Nat} {connections connections' : List Connection}
    (hin : ∀ c ∈ connections, c.a.index < size ∧ c.b.index < size)
    (hin' : ∀ c ∈ connections', c.a.index < size ∧ c.b.index < size)
    (h : ∀ s t, Connected connections s t ↔ Connected connections' s t) :
    ofConnections size connections = ofConnections size connections' := by
  obtain ⟨hsound, -, hroot⟩ := merge_spec hin
  obtain ⟨-, -, hroot'⟩ := merge_spec hin'
  unfold ofConnections
  exact ofRoots_congr hsound
    (fun i j => (hroot ⟨i⟩ ⟨j⟩).trans ((h _ _).trans (hroot' ⟨i⟩ ⟨j⟩).symm)) _

end Partition

/-! ## Resolved nets -/

/-- The nets are the classes of connected signals.  Members ascend, and the nets are numbered from 0
by their smallest members. -/
structure Canonical (signals : SignalTable) (connections : List Connection) (nets : NetMap) :
    Prop where
  net?_eq_iff : ∀ {a b}, a.index < signals.size → b.index < signals.size →
    (nets.net? a = nets.net? b ↔ Connected connections a b)
  net?_isSome : ∀ {a}, a.index < signals.size ↔ (nets.net? a).isSome
  mem_members : ∀ {n a}, a ∈ nets.members n ↔ nets.net? a = some n
  members_ascend : ∀ n, (nets.members n).Pairwise (·.index < ·.index)
  lt_size : ∀ {n}, n.index < nets.size ↔ ∃ a, nets.net? a = some n
  smallest_ascend : ∀ {n m}, n.index < m.index → m.index < nets.size →
    ∃ a b, (nets.members n).head? = some a ∧ (nets.members m).head? = some b ∧ a.index < b.index

section

variable {signals : SignalTable} {connections connections' : List Connection} {x : Extraction}

theorem Resolves.canonical {nets : NetMap} (h : Resolves signals connections x nets) :
    Canonical signals connections nets := by
  have hmembers : ∀ {n : NetId}, n.index < nets.size →
      nets.members n = (Partition.ofConnections signals.size connections).membersOf n := by
    intro n hn
    unfold NetMap.members
    rw [h.get_eq hn]
    rfl
  have hsize : nets.size = (Partition.ofConnections signals.size connections).size := h.size_eq
  refine ⟨h.net?_eq_iff, fun {a} => ?_, h.mem_members, fun n => ?_, fun {n} => ?_,
    fun {n m} hlt hm => ?_⟩
  · rw [Option.isSome_iff_exists]
    exact ⟨h.exists_net?, fun ⟨n, hn⟩ => h.lt_of_net? hn⟩
  · by_cases hn : n.index < nets.size
    · rw [hmembers hn]
      exact Partition.membersOf_ascend _ n
    · unfold NetMap.members
      rw [NetMap.get_of_le (Nat.le_of_not_lt hn)]
      exact List.Pairwise.nil
  · refine ⟨fun hn => ?_, fun ⟨a, ha⟩ => h.index_lt_size ha⟩
    obtain ⟨a, ha⟩ := Partition.exists_net?_eq (hsize ▸ hn)
    exact ⟨a, (h.net?_eq a).trans ha⟩
  · rw [hmembers hm, hmembers (Nat.lt_trans hlt hm)]
    exact Partition.head_ascend hlt (hsize ▸ hm)

/-- Connections between declared signals resolve alike if they connect the same signals. -/
theorem resolve_congr {options : ResolveOptions}
    (hin : ∀ c ∈ connections, c.a.index < signals.size ∧ c.b.index < signals.size)
    (hin' : ∀ c ∈ connections', c.a.index < signals.size ∧ c.b.index < signals.size)
    (h : ∀ s t, Connected connections s t ↔ Connected connections' s t) :
    resolve signals connections x options = resolve signals connections' x options := by
  -- whatever is not declared is mentioned by a block
  have hfind : ∀ {cs : List Connection},
      (∀ c ∈ cs, c.a.index < signals.size ∧ c.b.index < signals.size) →
      ((mentionedSignals cs x).find? fun s => !signals.contains s) =
        (mentionedSignals [] x).find? fun s => !signals.contains s := by
    intro cs hcs
    have hlt : ∀ s ∈ cs.flatMap fun c => [c.a, c.b], s.index < signals.size := by
      intro s hs
      obtain ⟨c, hc, hs⟩ := List.mem_flatMap.1 hs
      simp only [List.mem_cons, List.not_mem_nil, or_false] at hs
      rcases hs with rfl | rfl
      · exact (hcs c hc).1
      · exact (hcs c hc).2
    unfold mentionedSignals
    rw [List.find?_append, find?_undeclared hlt]
    rfl
  unfold resolve
  rw [hfind hin, hfind hin', Partition.ofConnections_congr hin hin' h]

end

/-- **Nets are canonical.**  The nets of a resolved design are the classes of connected signals,
numbered by their smallest members.  Two lists of connections between declared signals that connect
the same signals resolve alike, to the same nets or with the same error. -/
theorem resolve_canonical (signals : SignalTable) (connections : List Connection) (x : Extraction)
    (options : ResolveOptions) :
    (∀ nets, resolve signals connections x options = .ok nets →
      Canonical signals connections nets) ∧
    ∀ connections' : List Connection,
      (∀ c ∈ connections, c.a.index < signals.size ∧ c.b.index < signals.size) →
      (∀ c ∈ connections', c.a.index < signals.size ∧ c.b.index < signals.size) →
      (∀ s t, Connected connections s t ↔ Connected connections' s t) →
      resolve signals connections x options = resolve signals connections' x options :=
  ⟨fun _ h => (resolve_eq_ok h).canonical, fun _ hin hin' h => resolve_congr hin hin' h⟩

/-- One block writes signal 2, and another one copies signal 0 to signal 3. -/
def Design.tied : Design Unit :=
  ofEdits "top"
    [.declare "a" .wire "Bits8" Hierarchy.top, .declare "b" .wire "Bits8" Hierarchy.top,
      .declare "c" .wire "Bits8" Hierarchy.top, .declare "d" .wire "Bits8" Hierarchy.top,
      .registerBlock Hierarchy.top (.constant "drive" ⟨2⟩ 1),
      .registerBlock Hierarchy.top (.copy "observe" ⟨0⟩ ⟨3⟩)]

theorem connected_of_forall {connections connections' : List Connection}
    (h : ∀ c ∈ connections, Connected connections' c.a c.b) {s t : SignalId}
    (hst : Connected connections s t) : Connected connections' s t :=
  DisjointSets.eqvGen_map (f := id) (fun s t hc => h ⟨s, t⟩ hc) hst

/-- Signals 0, 1 and 2 are connected in a row and become one net.  Connected in another row they
resolve to the same nets. -/
theorem tied_canonical : ∃ x nets, extract Design.tied.liveBlocks = .ok x ∧
    resolve Design.tied.signals [⟨⟨0⟩, ⟨1⟩⟩, ⟨⟨1⟩, ⟨2⟩⟩] x ⟨false, Hierarchy.top⟩ = .ok nets ∧
    nets.net? ⟨0⟩ = nets.net? ⟨2⟩ ∧
    resolve Design.tied.signals [⟨⟨2⟩, ⟨1⟩⟩, ⟨⟨0⟩, ⟨2⟩⟩] x ⟨false, Hierarchy.top⟩ = .ok nets := by
  have hcheck : ((extract Design.tied.liveBlocks).toOption.any fun x =>
      (resolve Design.tied.signals [⟨⟨0⟩, ⟨1⟩⟩, ⟨⟨1⟩, ⟨2⟩⟩] x
        ⟨false, Hierarchy.top⟩).toOption.any fun _ => true) = true := by
    decide +kernel
  obtain ⟨x, hx, hcheck⟩ := Design.exists_ok_of_any hcheck
  obtain ⟨nets, hnets, -⟩ := Design.exists_ok_of_any hcheck
  have hsize : Design.tied.signals.size = 4 := by decide +kernel
  obtain ⟨hcanonical, halike⟩ := resolve_canonical Design.tied.signals
    [⟨⟨0⟩, ⟨1⟩⟩, ⟨⟨1⟩, ⟨2⟩⟩] x ⟨false, Hierarchy.top⟩
  have h₀₁ : Connected [⟨⟨0⟩, ⟨1⟩⟩, ⟨⟨1⟩, ⟨2⟩⟩] ⟨0⟩ ⟨1⟩ := .rel _ _ (by decide)
  have h₁₂ : Connected [⟨⟨0⟩, ⟨1⟩⟩, ⟨⟨1⟩, ⟨2⟩⟩] ⟨1⟩ ⟨2⟩ := .rel _ _ (by decide)
  have h₂₁ : Connected [⟨⟨2⟩, ⟨1⟩⟩, ⟨⟨0⟩, ⟨2⟩⟩] ⟨2⟩ ⟨1⟩ := .rel _ _ (by decide)
  have h₀₂ : Connected [⟨⟨2⟩, ⟨1⟩⟩, ⟨⟨0⟩, ⟨2⟩⟩] ⟨0⟩ ⟨2⟩ := .rel _ _ (by decide)
  refine ⟨x, nets, hx, hnets, ?_, ?_⟩
  · exact ((hcanonical nets hnets).net?_eq_iff (by rw [hsize]; decide) (by rw [hsize]; decide)).2
      (h₀₁.trans _ _ _ h₁₂)
  · rw [← halike _ (by rw [hsize]; decide) (by rw [hsize]; decide) fun s t => ⟨?_, ?_⟩]
    · exact hnets
    · refine connected_of_forall (List.forall_mem_cons.2 ⟨?_, List.forall_mem_singleton.2 ?_⟩)
      · exact h₀₂.trans _ _ _ h₂₁
      · exact h₂₁.symm
    · refine connected_of_forall (List.forall_mem_cons.2 ⟨?_, List.forall_mem_singleton.2 ?_⟩)
      · exact h₁₂.symm
      · exact h₀₁.trans _ _ _ h₁₂

end Cyclewise
