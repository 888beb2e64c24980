import Cyclewise.Block.Stock
import Cyclewise.Proofs.Elaboration
import Cyclewise.Proofs.Net.Drivers
import Cyclewise.Proofs.Net.Overlap

/-!
# Driver conflicts

`resolve` refuses a design for its drivers exactly when two blocks write connected signals, or two
connected signals drive their net, or a block writes a part of what another block writes.  The
refusal reports every net that is contested or holds such a part, and for each of them the blocks
and the signals involved, no more and no less (`ConflictReport`).
-/

namespace Cyclewise

/-! ## Lists of what is involved -/

section

variable {α β : Type} {key : α → Nat} {contested : Bool} {own : List α} {pairs : List (β × β)}
  {f : β → α} {text : α → String}

/-- The items of a contested net and both ends of the pairs, each with a text. -/
theorem mem_involved (hkey : ∀ a b, key a = key b → a = b) {a : α} {t : String} :
    (a, t) ∈ (ascendingBy key ((if contested then own else []) ++
        pairs.flatMap fun (p, q) => [f p, f q])).map (fun a => (a, text a)) ↔
      t = text a ∧ ((contested = true ∧ a ∈ own) ∨
        ∃ p q, (p, q) ∈ pairs ∧ (a = f p ∨ a = f q)) := by
  have hown : a ∈ (if contested then own else []) ↔ contested = true ∧ a ∈ own := by
    cases contested with
    | false => simp
    | true => simp
  have hpairs : a ∈ (pairs.flatMap fun (p, q) => [f p, f q]) ↔
      ∃ p q, (p, q) ∈ pairs ∧ (a = f p ∨ a = f q) := by
    rw [List.mem_flatMap, Prod.exists]
    simp
  rw [← hown, ← hpairs, ← List.mem_append, ← mem_ascendingBy hkey, List.mem_map]
  constructor
  · rintro ⟨a, ha, h⟩
    obtain ⟨rfl, rfl⟩ := Prod.mk.inj h
    exact ⟨rfl, ha⟩
  · rintro ⟨rfl, ha⟩
    exact ⟨a, ha, rfl⟩

theorem pairwise_involved (xs : List α) :
    ((ascendingBy key xs).map fun a => (a, text a)).Pairwise (key ·.1 < key ·.1) :=
  List.pairwise_map.2 (pairwise_ascendingBy key xs)

end

namespace Wiring

variable {w : Wiring} {name : BlockId → String} {n : NetId} {c : DriverConflict}

/-- A net has a conflict if it is contested or holds an overlap. -/
theorem conflict?_eq_some : w.conflict? name n = some c ↔
    (w.contested n = true ∨ w.overlaps n ≠ []) ∧ c =
      { net := n
        writers := (ascendingBy BlockId.index
          ((if w.contested n then w.claimants n else []) ++
            (w.overlaps n).flatMap fun (p, q) => [p.1, q.1])).map fun b => (b, name b)
        members := (ascendingBy SignalId.index
          ((if w.contested n then w.partition.membersOf n else []) ++
            (w.overlaps n).flatMap fun (p, q) => [p.2, q.2])).map
              fun s => (s, w.signals.path s) } := by
  have hcond : (w.contested n || !(w.overlaps n).isEmpty) = true ↔
      w.contested n = true ∨ w.overlaps n ≠ [] := by
    rw [Bool.or_eq_true, Bool.not_eq_true', ← Bool.not_eq_true, List.isEmpty_iff]
  unfold conflict?
  simp only [hcond]
  split
  · next h =>
    rw [Option.some.injEq]
    exact ⟨fun hc => ⟨h, hc.symm⟩, fun hc => hc.2.symm⟩
  · next h => exact iff_of_false (by simp) fun hc => h hc.1

theorem mem_conflicts : c ∈ w.conflicts name ↔
    c.net ∈ w.partition.ids ∧ w.conflict? name c.net = some c := by
  unfold conflicts
  rw [List.mem_filterMap]
  constructor
  · rintro ⟨n, hn, hc⟩
    obtain ⟨-, rfl⟩ := conflict?_eq_some.1 hc
    exact ⟨hn, hc⟩
  · rintro ⟨hn, hc⟩
    exact ⟨c.net, hn, hc⟩

/-- Conflicts are listed by ascending net. -/
theorem conflicts_ascend : (w.conflicts name).Pairwise (·.net.index < ·.net.index) := by
  have hids : w.partition.ids.Pairwise (·.index < ·.index) :=
    List.pairwise_map.2 List.pairwise_lt_range
  refine List.pairwise_filterMap.2 (hids.imp fun hlt c hc c' hc' => ?_)
  obtain ⟨-, rfl⟩ := conflict?_eq_some.1 hc
  obtain ⟨-, rfl⟩ := conflict?_eq_some.1 hc'
  exact hlt

theorem exists_conflict_iff : (∃ c ∈ w.conflicts name, c.net = n) ↔
    n ∈ w.partition.ids ∧ (w.contested n = true ∨ w.overlaps n ≠ []) := by
  constructor
  · rintro ⟨c, hc, rfl⟩
    obtain ⟨hids, hconflict⟩ := mem_conflicts.1 hc
    exact ⟨hids, (conflict?_eq_some.1 hconflict).1⟩
  · rintro ⟨hids, h⟩
    obtain ⟨c, hc⟩ : ∃ c, w.conflict? name n = some c := ⟨_, conflict?_eq_some.2 ⟨h, rfl⟩⟩
    obtain rfl : c.net = n := by rw [(conflict?_eq_some.1 hc).2]
    exact ⟨c, mem_conflicts.2 ⟨hids, hc⟩, rfl⟩

theorem writers_ascend (h : w.conflict? name n = some c) :
    c.writers.Pairwise (·.1.index < ·.1.index) := by
  obtain ⟨-, rfl⟩ := conflict?_eq_some.1 h
  exact pairwise_involved _

theorem members_ascend (h : w.conflict? name n = some c) :
    c.members.Pairwise (·.1.index < ·.1.index) := by
  obtain ⟨-, rfl⟩ := conflict?_eq_some.1 h
  exact pairwise_involved _

theorem mem_writers (h : w.conflict? name n = some c) {b : BlockId} {text : String} :
    (b, text) ∈ c.writers ↔ text = name b ∧ ((w.contested n = true ∧ b ∈ w.claimants n) ∨
      ∃ p q, (p, q) ∈ w.overlaps n ∧ (b = p.1 ∨ b = q.1)) := by
  obtain ⟨-, rfl⟩ := conflict?_eq_some.1 h
  exact mem_involved BlockId.eq_of_index

theorem mem_members (h : w.conflict? name n = some c) {s : SignalId} {text : String} :
    (s, text) ∈ c.members ↔
      text = w.signals.path s ∧ ((w.contested n = true ∧ s ∈ w.partition.membersOf n) ∨
        ∃ p q, (p, q) ∈ w.overlaps n ∧ (s = p.2 ∨ s = q.2)) := by
  obtain ⟨-, rfl⟩ := conflict?_eq_some.1 h
  exact mem_involved SignalId.eq_of_index

end Wiring

/-! ## What conflicts are -/

section

variable (signals : SignalTable) (connections : List Connection) (x : Extraction)

/-- The signal gives a value to its net: a block writes it, or it is a constant. -/
def Drives (s : SignalId) : Prop := (∃ b, x.Writes b s) ∨ ∃ v, signals.IsConst s v

/-- The signal is in the net. -/
def InNet (n : NetId) (s : SignalId) : Prop :=
  (Partition.ofConnections signals.size connections).net? s = some n

instance (n : NetId) (s : SignalId) : Decidable (InNet signals connections n s) :=
  inferInstanceAs (Decidable (_ = _))

/-- Two blocks write signals of the net, or two signals drive the net. -/
def Contested (n : NetId) : Prop :=
  (∃ b s b' s', b ≠ b' ∧ (x.Writes b s ∧ InNet signals connections n s) ∧
    x.Writes b' s' ∧ InNet signals connections n s') ∨
  ∃ s s', s ≠ s' ∧ (Drives signals x s ∧ InNet signals connections n s) ∧
    Drives signals x s' ∧ InNet signals connections n s'

/-- A block writes a signal, and another block writes a whole around it. -/
structure Overlap (b : BlockId) (s : SignalId) (b' : BlockId) (whole : SignalId) : Prop where
  writes_part : x.Writes b s
  writes_whole : x.Writes b' whole
  ne : b ≠ b'
  partOf : signals.PartOf s whole

/-- Every net that is contested or holds the part of an overlap is reported once, in order.  With
it go, by ascending number, the blocks that write a contested net and all its members, and both
blocks and both signals of the overlaps. -/
structure ConflictReport (conflicts : List DriverConflict) : Prop where
  ascend : conflicts.Pairwise (·.net.index < ·.net.index)
  nets : ∀ n, (∃ c ∈ conflicts, c.net = n) ↔ Contested signals connections x n ∨
    ∃ b s b' whole, Overlap signals x b s b' whole ∧ InNet signals connections n s
  writers_ascend : ∀ c ∈ conflicts, c.writers.Pairwise (·.1.index < ·.1.index)
  mem_writers : ∀ c ∈ conflicts, ∀ b text, (b, text) ∈ c.writers ↔ text = x.name b ∧
    ((Contested signals connections x c.net ∧
        ∃ s, x.Writes b s ∧ InNet signals connections c.net s) ∨
      ∃ b₁ s b₂ whole, Overlap signals x b₁ s b₂ whole ∧ InNet signals connections c.net s ∧
        (b = b₁ ∨ b = b₂))
  members_ascend : ∀ c ∈ conflicts, c.members.Pairwise (·.1.index < ·.1.index)
  mem_members : ∀ c ∈ conflicts, ∀ t text, (t, text) ∈ c.members ↔ text = signals.path t ∧
    ((Contested signals connections x c.net ∧ InNet signals connections c.net t) ∨
      ∃ b₁ s b₂ whole, Overlap signals x b₁ s b₂ whole ∧ InNet signals connections c.net s ∧
        (t = s ∨ t = whole))

end

section

variable {signals : SignalTable} {connections : List Connection} {x : Extraction} {n : NetId}

namespace Wiring

theorem mem_driving_ofDesign {s : SignalId} :
    s ∈ (ofDesign signals connections x).driving n ↔
      Drives signals x s ∧ InNet signals connections n s := by
  rw [mem_driving]
  simp only [mem_claims_ofDesign, mem_constants_ofDesign]
  rw [exists_and_right, exists_and_right, ← or_and_right]
  rfl

theorem mem_claimants_ofDesign {b : BlockId} :
    b ∈ (ofDesign signals connections x).claimants n ↔
      ∃ s, x.Writes b s ∧ InNet signals connections n s := by
  unfold claimants
  rw [List.mem_eraseDups, List.mem_map, Prod.exists]
  simp only [mem_claims_ofDesign]
  constructor
  · rintro ⟨b, s, h, rfl⟩
    exact ⟨s, h⟩
  · rintro ⟨s, h⟩
    exact ⟨b, s, h, rfl⟩

theorem contested_ofDesign :
    (ofDesign signals connections x).contested n = true ↔ Contested signals connections x n := by
  rw [contested_iff]
  simp only [mem_driving_ofDesign, mem_claimants_ofDesign]
  refine or_congr ⟨?_, ?_⟩ ⟨?_, ?_⟩
  · rintro ⟨b, ⟨s, hs⟩, b', ⟨s', hs'⟩, hne⟩
    exact ⟨b, s, b', s', hne, hs, hs'⟩
  · rintro ⟨b, s, b', s', hne, hs, hs'⟩
    exact ⟨b, ⟨s, hs⟩, b', ⟨s', hs'⟩, hne⟩
  · rintro ⟨s, hs, s', hs', hne⟩
    exact ⟨s, s', hne, hs, hs'⟩
  · rintro ⟨s, s', hne, hs, hs'⟩
    exact ⟨s, hs, s', hs', hne⟩

theorem mem_writersOf_ofDesign {b : BlockId} {s : SignalId} :
    b ∈ (ofDesign signals connections x).writersOf s ↔ x.Writes b s := by
  rw [mem_writersOf]
  exact exists_congr fun access => and_congr_left fun _ => Extraction.mem_blocks

theorem mem_overlaps_ofDesign (hf : signals.Forest) {b b' : BlockId} {s whole : SignalId} :
    ((b, s), (b', whole)) ∈ (ofDesign signals connections x).overlaps n ↔
      Overlap signals x b s b' whole ∧ InNet signals connections n s := by
  rw [mem_overlaps, mem_writersOf_ofDesign, mem_writersOf_ofDesign]
  constructor
  · rintro ⟨hs, hb, hwhole, hb', hne⟩
    exact ⟨⟨hb, hb', hne, hf.mem_ancestors.1 hwhole⟩, Partition.mem_membersOf.1 hs⟩
  · rintro ⟨⟨hb, hb', hne, hpart⟩, hs⟩
    exact ⟨Partition.mem_membersOf.2 hs, hb, hf.mem_ancestors.2 hpart, hb', hne⟩

theorem overlaps_ne_nil (hf : signals.Forest) :
    (ofDesign signals connections x).overlaps n ≠ [] ↔
      ∃ b s b' whole, Overlap signals x b s b' whole ∧ InNet signals connections n s := by
  rw [ne_eq, List.eq_nil_iff_forall_not_mem, not_forall_not]
  simp only [Prod.exists, mem_overlaps_ofDesign hf]

end Wiring

/-! ## The check -/

/-- Declared signals are in one net exactly when connections join them. -/
theorem exists_inNet_iff
    (hin : ∀ c ∈ connections, c.a.index < signals.size ∧ c.b.index < signals.size)
    {s s' : SignalId} (hs : s.index < signals.size) (hs' : s'.index < signals.size) :
    (∃ n, InNet signals connections n s ∧ InNet signals connections n s') ↔
      Connected connections s s' := by
  rw [← Partition.net?_eq_iff_connected hin hs hs']
  constructor
  · rintro ⟨n, hn, hn'⟩
    exact hn.trans hn'.symm
  · intro h
    obtain ⟨n, hn⟩ : ∃ n, InNet signals connections n s := Partition.exists_net? hs
    exact ⟨n, hn, h.symm.trans hn⟩

section

variable (hdeclared : ∀ s ∈ mentionedSignals connections x, s.index < signals.size)

include hdeclared

theorem resolve_eq_multipleDrivers {options : ResolveOptions} {conflicts : List DriverConflict} :
    resolve signals connections x options = .error (.multipleDrivers conflicts) ↔
      conflicts ≠ [] ∧ conflicts = (Wiring.ofDesign signals connections x).conflicts x.name := by
  unfold resolve
  rw [find?_undeclared hdeclared]
  show (if !((Wiring.ofDesign signals connections x).conflicts x.name).isEmpty then _ else _) = _ ↔
    _
  split
  · next h =>
    rw [Bool.not_eq_true', ← Bool.not_eq_true, List.isEmpty_iff] at h
    constructor
    · intro heq
      obtain rfl := NetError.multipleDrivers.inj (Except.error.inj heq)
      exact ⟨h, rfl⟩
    · rintro ⟨-, rfl⟩
      rfl
  · next h =>
    rw [Bool.not_eq_true', Bool.not_eq_false, List.isEmpty_iff] at h
    refine iff_of_false ?_ fun hc => hc.1 (hc.2.trans h)
    simp only
    generalize (if options.denyUndriven = true then _ else _) = outputs
    split
    · simp
    · simp

theorem exists_contested_iff : (∃ n, Contested signals connections x n) ↔
    (∃ b s b' s', b ≠ b' ∧ x.Writes b s ∧ x.Writes b' s' ∧ Connected connections s s') ∨
      ∃ s s', s ≠ s' ∧ Drives signals x s ∧ Drives signals x s' ∧ Connected connections s s' := by
  have hin := connection_lt_of_declared hdeclared
  have hwrites : ∀ {b s}, x.Writes b s → s.index < signals.size := fun ⟨_, hb, hs⟩ =>
    hdeclared _ (mentioned_of_access hb (.inr hs))
  have hdrives : ∀ {s}, Drives signals x s → s.index < signals.size := by
    rintro s (⟨b, hb⟩ | ⟨v, d, hd, -⟩)
    · exact hwrites hb
    · exact (Array.getElem?_eq_some_iff.1 hd).1
  unfold Contested
  rw [exists_or]
  refine or_congr ⟨?_, ?_⟩ ⟨?_, ?_⟩
  · rintro ⟨n, b, s, b', s', hne, ⟨hb, hs⟩, hb', hs'⟩
    exact ⟨b, s, b', s', hne, hb, hb',
      (exists_inNet_iff hin (hwrites hb) (hwrites hb')).1 ⟨n, hs, hs'⟩⟩
  · rintro ⟨b, s, b', s', hne, hb, hb', hconnected⟩
    obtain ⟨n, hs, hs'⟩ := (exists_inNet_iff hin (hwrites hb) (hwrites hb')).2 hconnected
    exact ⟨n, b, s, b', s', hne, ⟨hb, hs⟩, hb', hs'⟩
  · rintro ⟨n, s, s', hne, ⟨hd, hs⟩, hd', hs'⟩
    exact ⟨s, s', hne, hd, hd', (exists_inNet_iff hin (hdrives hd) (hdrives hd')).1 ⟨n, hs, hs'⟩⟩
  · rintro ⟨s, s', hne, hd, hd', hconnected⟩
    obtain ⟨n, hs, hs'⟩ := (exists_inNet_iff hin (hdrives hd) (hdrives hd')).2 hconnected
    exact ⟨n, s, s', hne, ⟨hd, hs⟩, hd', hs'⟩

omit hdeclared in
theorem conflictReport (hf : signals.Forest) :
    ConflictReport signals connections x
      ((Wiring.ofDesign signals connections x).conflicts x.name) := by
  have hoverlap : ∀ {n} {P : BlockId → SignalId → BlockId → SignalId → Prop},
      (∃ p q, (p, q) ∈ (Wiring.ofDesign signals connections x).overlaps n ∧ P p.1 p.2 q.1 q.2) ↔
        ∃ b s b' whole, Overlap signals x b s b' whole ∧ InNet signals connections n s ∧
          P b s b' whole := by
    intro n P
    simp only [Prod.exists, Wiring.mem_overlaps_ofDesign hf, and_assoc]
  have hconflict : ∀ {c}, c ∈ (Wiring.ofDesign signals connections x).conflicts x.name →
      (Wiring.ofDesign signals connections x).conflict? x.name c.net = some c := fun hc =>
    (Wiring.mem_conflicts.1 hc).2
  refine ⟨Wiring.conflicts_ascend, fun n => ?_, fun c hc => Wiring.writers_ascend (hconflict hc),
    fun c hc b text => ?_, fun c hc => Wiring.members_ascend (hconflict hc),
    fun c hc t text => ?_⟩
  · rw [Wiring.exists_conflict_iff, Wiring.contested_ofDesign, Wiring.overlaps_ne_nil hf]
    refine and_iff_right_of_imp fun h => ?_
    have hids : ∀ {s}, InNet signals connections n s →
        n ∈ (Wiring.ofDesign signals connections x).partition.ids := fun hs =>
      Partition.mem_ids.2 (Partition.index_lt_size_ofRoots hs)
    rcases h with (⟨b, s, b', s', -, ⟨-, hs⟩, -⟩ | ⟨s, s', -, ⟨-, hs⟩, -⟩) |
      ⟨b, s, b', whole, -, hs⟩
    · exact hids hs
    · exact hids hs
    · exact hids hs
  · rw [Wiring.mem_writers (hconflict hc), Wiring.contested_ofDesign, Wiring.mem_claimants_ofDesign,
      hoverlap (P := fun b₁ _ b₂ _ => b = b₁ ∨ b = b₂)]
  · rw [Wiring.mem_members (hconflict hc), Wiring.contested_ofDesign,
      hoverlap (P := fun _ s _ whole => t = s ∨ t = whole)]
    exact and_congr_right fun _ => or_congr_left (and_congr_right fun _ => Partition.mem_membersOf)

end

end

/-- **The driver check is exact.**  Among declared signals, a design is refused for its drivers
exactly when two blocks write connected signals, two connected signals drive their net, or a block
writes a part of what another block writes.  The report names just these nets, blocks and signals,
and in a resolved design the drivers of the nets are what they should be. -/
theorem resolve_drivers {signals : SignalTable} {connections : List Connection} {x : Extraction}
    (options : ResolveOptions) (hsignals : signals.Built)
    (hdeclared : ∀ s ∈ mentionedSignals connections x, s.index < signals.size) :
    ((∃ conflicts,
        resolve signals connections x options = .error (.multipleDrivers conflicts)) ↔
      (∃ b s b' s', b ≠ b' ∧ x.Writes b s ∧ x.Writes b' s' ∧ Connected connections s s') ∨
      (∃ s s', s ≠ s' ∧ Drives signals x s ∧ Drives signals x s' ∧ Connected connections s s') ∨
      ∃ b s b' whole, Overlap signals x b s b' whole) ∧
    (∀ conflicts, resolve signals connections x options = .error (.multipleDrivers conflicts) →
      ConflictReport signals connections x conflicts) ∧
    ∀ nets, resolve signals connections x options = .ok nets → Driven signals x nets := by
  have hreport : ConflictReport signals connections x
      ((Wiring.ofDesign signals connections x).conflicts x.name) := conflictReport hsignals.forest
  refine ⟨?_, fun conflicts h => ?_, fun nets h => (resolve_eq_ok h).driven⟩
  · simp only [resolve_eq_multipleDrivers hdeclared]
    rw [← or_assoc, ← exists_contested_iff hdeclared, exists_eq_right, ne_eq,
      List.eq_nil_iff_forall_not_mem, not_forall_not]
    constructor
    · rintro ⟨c, hc⟩
      rcases (hreport.nets c.net).1 ⟨c, hc, rfl⟩ with h | ⟨b, s, b', whole, h, -⟩
      · exact .inl ⟨c.net, h⟩
      · exact .inr ⟨b, s, b', whole, h⟩
    · rintro (⟨n, h⟩ | ⟨b, s, b', whole, h⟩)
      · obtain ⟨c, hc, -⟩ := (hreport.nets n).2 (.inl h)
        exact ⟨c, hc⟩
      · obtain ⟨access, haccess, hs⟩ := h.writes_part
        obtain ⟨n, hn⟩ : ∃ n, InNet signals connections n s :=
          Partition.exists_net? (hdeclared s (mentioned_of_access haccess (.inr hs)))
        obtain ⟨c, hc, -⟩ := (hreport.nets n).2 (.inr ⟨b, s, b', whole, h, hn⟩)
        exact ⟨c, hc⟩
  · rw [((resolve_eq_multipleDrivers hdeclared).1 h).2]
    exact hreport

/-- Block 0 writes signal 0, and block 1 writes its part 1.  Block 2 writes signal 3, which is
connected to the constant 2. -/
def Design.contended : Design Unit :=
  ofEdits "top"
    [.declare "a" .wire "Bits8" Hierarchy.top, .declareChild ⟨0⟩ "[0]" "Bits1",
      .declare "k" (.const 5) "Bits8" Hierarchy.top, .declare "w" .wire "Bits8" Hierarchy.top,
      .connect ⟨3⟩ ⟨2⟩, .registerBlock Hierarchy.top (.constant "whole" ⟨0⟩ 1),
      .registerBlock Hierarchy.top (.constant "part" ⟨1⟩ 1),
      .registerBlock Hierarchy.top (.constant "drive" ⟨3⟩ 1)]

/-- The net of the part and the net of the constant are reported. -/
theorem contended_drivers : ∃ x conflicts, extract Design.contended.liveBlocks = .ok x ∧
    resolve Design.contended.signals Design.contended.connections x ⟨false, Hierarchy.top⟩ =
      .error (.multipleDrivers conflicts) ∧
    (∃ c ∈ conflicts, c.net = ⟨1⟩) ∧ ∃ c ∈ conflicts, c.net = ⟨2⟩ := by
  have hcheck : ((extract Design.contended.liveBlocks).toOption.any fun x =>
      ((x.access? ⟨0⟩).any fun access => access.writes.contains ⟨0⟩) &&
      ((x.access? ⟨1⟩).any fun access => access.writes.contains ⟨1⟩) &&
      ((x.access? ⟨2⟩).any fun access => access.writes.contains ⟨3⟩) &&
      (mentionedSignals Design.contended.connections x).all fun s =>
        decide (s.index < Design.contended.signals.size)) = true := by
    decide +kernel
  obtain ⟨x, hx, hcheck⟩ := Design.exists_ok_of_any hcheck
  simp only [Bool.and_eq_true, Option.any_eq_true, List.all_eq_true, decide_eq_true_eq] at hcheck
  obtain ⟨⟨⟨⟨a₀, h₀, hw₀⟩, ⟨a₁, h₁, hw₁⟩⟩, ⟨a₂, h₂, hw₂⟩⟩, hdeclared⟩ := hcheck
  have hsignals : Design.contended.signals.Built := (Design.built_ofEdits _ _).parts.2
  have hparent : Design.contended.signals.parent? ⟨1⟩ = some ⟨0⟩ := by decide +kernel
  have hkind : ((Design.contended.signals.get? ⟨2⟩).any fun d => decide (d.kind = .const 5)) =
      true := by
    decide +kernel
  obtain ⟨d, hd, hkind⟩ := (Option.any_eq_true ..).1 hkind
  have hconst : Design.contended.signals.IsConst ⟨2⟩ 5 := ⟨d, hd, of_decide_eq_true hkind⟩
  have hnet : ∀ i ∈ [(⟨2⟩ : SignalId), ⟨3⟩],
      InNet Design.contended.signals Design.contended.connections ⟨2⟩ i := by decide +kernel
  have hoverlap : Overlap Design.contended.signals x ⟨1⟩ ⟨1⟩ ⟨0⟩ ⟨0⟩ :=
    ⟨⟨a₁, h₁, hw₁⟩, ⟨a₀, h₀, hw₀⟩, by decide, .single hparent⟩
  obtain ⟨hrefused, hreport, -⟩ := resolve_drivers ⟨false, Hierarchy.top⟩ hsignals hdeclared
  obtain ⟨conflicts, hconflicts⟩ := hrefused.2 (.inr (.inr ⟨_, _, _, _, hoverlap⟩))
  refine ⟨x, conflicts, hx, hconflicts, ?_, ?_⟩
  · exact ((hreport conflicts hconflicts).nets ⟨1⟩).2
      (.inr ⟨_, _, _, _, hoverlap, by decide +kernel⟩)
  · refine ((hreport conflicts hconflicts).nets ⟨2⟩).2 (.inl (.inr ⟨⟨2⟩, ⟨3⟩, by decide, ?_, ?_⟩))
    · exact ⟨.inr ⟨5, hconst⟩, hnet _ (by simp)⟩
    · exact ⟨.inl ⟨⟨2⟩, a₂, h₂, hw₂⟩, hnet _ (by simp)⟩

end Cyclewise
