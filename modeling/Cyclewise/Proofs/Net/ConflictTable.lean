import Cyclewise.Net.Tables
import Cyclewise.Proofs.Net.Conflicts
import Cyclewise.Proofs.Net.Edges

/-!
# The table of conflicts

Contested nets and overlaps are entered into one table, in the order in which they are found.  What
the table shows at the end does not depend on that order: a loop finds what its rounds find
(`ConflictTable.shows_foldl`).  So a table that is complete gives the report of all conflicts
(`ConflictTable.Complete.report_eq`).
-/

namespace Cyclewise

/-! ## What is found -/

/-- What a table of conflicts can show: a net in conflict, or a block or a signal involved in it. -/
inductive Finding where
  | net (n : NetId)
  | writer (n : NetId) (b : BlockId)
  | member (n : NetId) (s : SignalId)

/-- The finding is one about net `n`, with these blocks and signals. -/
def Finding.Among (n : NetId) (bs : List BlockId) (ss : List SignalId) : Finding → Prop
  | net n' => n' = n
  | writer n' b => n' = n ∧ b ∈ bs
  | member n' s => n' = n ∧ s ∈ ss

namespace ConflictTable

/-- The table shows a finding. -/
def Shows (c : ConflictTable) : Finding → Prop
  | .net n => n ∈ c.keys
  | .writer n b => b ∈ (c.findD n Involved.none).writers
  | .member n s => s ∈ (c.findD n Involved.none).members

variable {c : ConflictTable} {f : Finding}

theorem not_shows_empty : ¬ Shows ∅ f := by
  cases f with
  | net n => exact List.not_mem_nil
  | writer n b => exact List.not_mem_nil
  | member n s => exact List.not_mem_nil

/-- Entering adds to one list of one net. -/
theorem mem_findD_enter {α : Type} [DecidableEq α] {get : Involved → List α} {n : NetId}
    {bs : List BlockId} {ss : List SignalId} {xs : List α}
    (hadd : ∀ i : Involved, get (i.add bs ss) = addMissing (get i) xs) {n' : NetId} {a : α} :
    a ∈ get ((c.enter n bs ss).findD n' Involved.none) ↔
      a ∈ get (c.findD n' Involved.none) ∨ n' = n ∧ a ∈ xs := by
  unfold enter
  rw [OrderedMap.findD_modify]
  by_cases h : n' = n
  · subst h
    rw [if_pos rfl, hadd]
    refine mem_foldl_missing.trans (or_congr Iff.rfl ?_)
    simp
  · simp [h]

theorem shows_enter {n : NetId} {bs : List BlockId} {ss : List SignalId} :
    (c.enter n bs ss).Shows f ↔ c.Shows f ∨ f.Among n bs ss := by
  cases f with
  | net n' =>
    show n' ∈ (c.insert n _).keys ↔ n' ∈ c.keys ∨ n' = n
    rw [OrderedMap.keys_insert]
    split
    · next hn => exact ⟨.inl, fun h => h.elim id fun heq => heq ▸ hn⟩
    · simp
  | writer n' b => exact mem_findD_enter fun _ => rfl
  | member n' s => exact mem_findD_enter fun _ => rfl

/-- A loop shows what its rounds show. -/
theorem shows_foldl {α : Type} {step : ConflictTable → α → ConflictTable} {found : α → Prop}
    {xs : List α} (h : ∀ c, ∀ x ∈ xs, (step c x).Shows f ↔ c.Shows f ∨ found x) :
    (xs.foldl step c).Shows f ↔ c.Shows f ∨ ∃ x ∈ xs, found x :=
  foldl_finds (Shows · f) h

theorem shows_meet {p : Partition} {part whole : BlockId × SignalId} :
    (c.meet p part whole).Shows f ↔ c.Shows f ∨ part.1 ≠ whole.1 ∧
      ∃ n, p.net? part.2 = some n ∧ f.Among n [part.1, whole.1] [part.2, whole.2] := by
  unfold meet
  split
  · next heq => exact ⟨.inl, fun h => h.elim id fun h => absurd heq h.1⟩
  · next hne =>
    cases hn : p.net? part.2 with
    | none => simp
    | some n => simp [shows_enter, hne]

theorem shows_meetAll {p : Partition} {part whole : SignalId × List BlockId} :
    (c.meetAll p part whole).Shows f ↔ c.Shows f ∨
      ∃ b ∈ part.2, ∃ b' ∈ whole.2, b ≠ b' ∧
        ∃ n, p.net? part.1 = some n ∧ f.Among n [b, b'] [part.1, whole.1] :=
  shows_foldl fun _ _ _ => shows_foldl fun _ _ _ => shows_meet

section

variable {w : Wiring} {signalWriters : OrderedMap SignalId (List BlockId)}
  (hw : ∀ s, signalWriters.findD s [] = w.writersOf s)
  (hp : ∀ s n, s ∈ w.partition.membersOf n ↔ w.partition.net? s = some n)

include hw

theorem shows_overlapWhole {part : SignalId × List BlockId} {whole : SignalId} :
    (c.overlapWhole w signalWriters part whole).Shows f ↔ c.Shows f ∨
      ∃ b ∈ part.2, ∃ b' ∈ w.writersOf whole, b ≠ b' ∧
        ∃ n, w.partition.net? part.1 = some n ∧ f.Among n [b, b'] [part.1, whole] := by
  unfold overlapWhole
  rw [← hw, OrderedMap.findD]
  cases signalWriters.find? whole with
  | none => simp
  | some others => exact shows_meetAll

include hp

/-- The writes to one signal add the overlaps at this signal. -/
theorem shows_overlap {s : SignalId} {bs : List BlockId} (hs : signalWriters.find? s = some bs) :
    (c.overlap w signalWriters (s, bs)).Shows f ↔ c.Shows f ∨
      ∃ n b b' whole, ((b, s), (b', whole)) ∈ w.overlaps n ∧
        f.Among n [b, b'] [s, whole] := by
  have hbs : bs = w.writersOf s := by rw [← hw, OrderedMap.findD, hs, Option.getD_some]
  have hround : ∀ c : ConflictTable, ∀ whole ∈ w.signals.ancestors s,
      (c.overlapWhole w signalWriters (s, bs) whole).Shows f ↔ c.Shows f ∨
        ∃ b ∈ bs, ∃ b' ∈ w.writersOf whole, b ≠ b' ∧
          ∃ n, w.partition.net? s = some n ∧ f.Among n [b, b'] [s, whole] :=
    fun _ _ _ => shows_overlapWhole hw
  refine (shows_foldl hround).trans (or_congr Iff.rfl ?_)
  rw [hbs]
  constructor
  · rintro ⟨whole, hwhole, b, hb, b', hb', hne, n, hn, hf⟩
    exact ⟨n, b, b', whole, Wiring.mem_overlaps.2 ⟨(hp s n).2 hn, hb, hwhole, hb', hne⟩, hf⟩
  · rintro ⟨n, b, b', whole, hmem, hf⟩
    obtain ⟨hn, hb, hwhole, hb', hne⟩ := Wiring.mem_overlaps.1 hmem
    exact ⟨whole, hwhole, b, hb, b', hb', hne, n, (hp s n).1 hn, hf⟩

/-- The writes to all signals add all overlaps. -/
theorem shows_overlaps :
    (signalWriters.entries.foldl (overlap w signalWriters) c).Shows f ↔ c.Shows f ∨
      ∃ n, ∃ o ∈ w.overlaps n, f.Among n [o.1.1, o.2.1] [o.1.2, o.2.2] := by
  have hround : ∀ c : ConflictTable, ∀ e ∈ signalWriters.entries,
      (c.overlap w signalWriters e).Shows f ↔ c.Shows f ∨
        ∃ n b b' whole, ((b, e.1), (b', whole)) ∈ w.overlaps n ∧
          f.Among n [b, b'] [e.1, whole] :=
    fun c e he => shows_overlap hw hp (OrderedMap.mem_entries_iff.1 he)
  refine (shows_foldl hround).trans (or_congr Iff.rfl ?_)
  constructor
  · rintro ⟨e, -, n, b, b', whole, ho, hf⟩
    exact ⟨n, _, ho, hf⟩
  · rintro ⟨n, ⟨⟨b, s⟩, b', whole⟩, ho, hf⟩
    -- the signal has an entry, as a block writes it
    have hb := (Wiring.mem_overlaps.1 ho).2.1
    rw [← hw] at hb
    obtain ⟨bs, hs, -⟩ := OrderedMap.mem_findD_iff.1 hb
    exact ⟨(s, bs), hs, n, b, b', whole, ho, hf⟩

end

end ConflictTable

/-! ## The report -/

/-- An ascending list is told by what is put into it. -/
theorem ascendingBy_congr {α : Type} {key : α → Nat} (hkey : ∀ a b, key a = key b → a = b)
    {xs ys : List α} (h : ∀ a, a ∈ xs ↔ a ∈ ys) : ascendingBy key xs = ascendingBy key ys :=
  eq_of_ascending (pairwise_ascendingBy key xs) (pairwise_ascendingBy key ys) fun a => by
    rw [mem_ascendingBy hkey, mem_ascendingBy hkey, h a]

namespace ConflictTable

theorem report_perm (w : Wiring) (name : BlockId → String) (c : ConflictTable) :
    (c.report w name).Perm (c.entries.map (describe w name)) := List.mergeSort_perm ..

/-- A report names each net once, in ascending order. -/
theorem report_ascends (w : Wiring) (name : BlockId → String) (c : ConflictTable) :
    (c.report w name).Pairwise (·.net.index < ·.net.index) := by
  have hle : (c.report w name).Pairwise fun d d' => decide (d.net.index ≤ d'.net.index) = true :=
    List.pairwise_mergeSort (fun d d' d'' => by simpa using Nat.le_trans)
      (fun d d' => by simpa using Nat.le_total d.net.index d'.net.index) _
  have hnets : (c.entries.map (describe w name)).map DriverConflict.net = c.keys := by
    rw [List.map_map]
    rfl
  have hnodup : ((c.report w name).map DriverConflict.net).Nodup := by
    rw [((report_perm w name c).map _).nodup_iff, hnets]
    exact c.nodup_keys
  refine (hle.and (List.pairwise_map.1 hnodup)).imp ?_
  rintro d d' ⟨hle, hne⟩
  have hindex : d.net.index ≠ d'.net.index := fun h => hne (NetId.eq_of_index _ _ h)
  have := of_decide_eq_true hle
  omega

/-- The table shows the contested nets and the overlaps of a wiring, and nothing else. -/
def Complete (w : Wiring) (c : ConflictTable) : Prop :=
  ∀ f, c.Shows f ↔
    (∃ n : NetId, n.index < w.partition.size ∧ w.contested n = true ∧
      f.Among n (w.claimants n) (w.partition.membersOf n)) ∨
    ∃ n, ∃ o ∈ w.overlaps n, f.Among n [o.1.1, o.2.1] [o.1.2, o.2.2]

variable {w : Wiring} {c : ConflictTable} (hc : c.Complete w)

include hc

/-- The nets of the table are those with a conflict. -/
theorem Complete.mem_keys
    (hsize : ∀ n, w.overlaps n ≠ [] → n.index < w.partition.size) {n : NetId} :
    n ∈ c.keys ↔ n ∈ w.partition.ids ∧ (w.contested n = true ∨ w.overlaps n ≠ []) := by
  rw [Partition.mem_ids]
  refine (hc (.net n)).trans ?_
  constructor
  · rintro (⟨n, hn, hcontested, rfl⟩ | ⟨n, o, ho, rfl⟩)
    · exact ⟨hn, .inl hcontested⟩
    · have hne : w.overlaps n ≠ [] := List.ne_nil_of_mem ho
      exact ⟨hsize n hne, .inr hne⟩
  · rintro ⟨hn, hcontested | hne⟩
    · exact .inl ⟨n, hn, hcontested, rfl⟩
    · obtain ⟨o, ho⟩ := List.exists_mem_of_ne_nil _ hne
      exact .inr ⟨n, o, ho, rfl⟩

/-- What the table has for a net describes its conflict. -/
theorem Complete.describe_eq {name : BlockId → String} {n : NetId} {i : Involved}
    (hn : n.index < w.partition.size) (hi : c.find? n = some i) :
    describe w name (n, i) =
      { net := n
        writers := (ascendingBy BlockId.index
          ((if w.contested n then w.claimants n else []) ++
            (w.overlaps n).flatMap fun (p, q) => [p.1, q.1])).map fun b => (b, name b)
        members := (ascendingBy SignalId.index
          ((if w.contested n then w.partition.membersOf n else []) ++
            (w.overlaps n).flatMap fun (p, q) => [p.2, q.2])).map
              fun s => (s, w.signals.path s) } := by
  have hfind : c.findD n Involved.none = i := by rw [OrderedMap.findD, hi, Option.getD_some]
  have hwriters : ∀ b, b ∈ i.writers ↔ b ∈ (if w.contested n then w.claimants n else []) ++
      (w.overlaps n).flatMap fun (p, q) => [p.1, q.1] := by
    intro b
    rw [← hfind]
    refine (hc (.writer n b)).trans ?_
    simp only [Finding.Among, List.mem_append, List.mem_flatMap]
    refine or_congr ?_ ?_
    · cases hcontested : w.contested n <;> simp [hcontested, hn]
    · simp
  have hmembers : ∀ s, s ∈ i.members ↔
      s ∈ (if w.contested n then w.partition.membersOf n else []) ++
        (w.overlaps n).flatMap fun (p, q) => [p.2, q.2] := by
    intro s
    rw [← hfind]
    refine (hc (.member n s)).trans ?_
    simp only [Finding.Among, List.mem_append, List.mem_flatMap]
    refine or_congr ?_ ?_
    · cases hcontested : w.contested n <;> simp [hcontested, hn]
    · simp
  unfold describe
  simp only [ascendingBy_congr BlockId.eq_of_index hwriters,
    ascendingBy_congr SignalId.eq_of_index hmembers]

/-- The report is that of all conflicts. -/
theorem Complete.report_eq (hsize : ∀ n, w.overlaps n ≠ [] → n.index < w.partition.size)
    (name : BlockId → String) : c.report w name = w.conflicts name := by
  refine eq_of_ascending (report_ascends w name c) Wiring.conflicts_ascend fun d => ?_
  rw [(report_perm w name c).mem_iff, List.mem_map, Wiring.mem_conflicts]
  constructor
  · rintro ⟨⟨n, i⟩, hentry, rfl⟩
    have hkey : n ∈ c.keys := List.mem_map.2 ⟨(n, i), hentry, rfl⟩
    obtain ⟨hids, hcond⟩ := (hc.mem_keys hsize).1 hkey
    refine ⟨hids, Wiring.conflict?_eq_some.2 ⟨hcond, ?_⟩⟩
    exact hc.describe_eq (Partition.mem_ids.1 hids) (OrderedMap.mem_entries_iff.1 hentry)
  · rintro ⟨hids, hconflict⟩
    obtain ⟨hcond, heq⟩ := Wiring.conflict?_eq_some.1 hconflict
    obtain ⟨i, hi⟩ := OrderedMap.mem_keys_iff.1 ((hc.mem_keys hsize).2 ⟨hids, hcond⟩)
    refine ⟨(d.net, i), OrderedMap.mem_entries_iff.2 hi, ?_⟩
    exact (hc.describe_eq (Partition.mem_ids.1 hids) hi).trans heq.symm

theorem Complete.isEmpty_eq (hsize : ∀ n, w.overlaps n ≠ [] → n.index < w.partition.size)
    (name : BlockId → String) : c.isEmpty = (w.conflicts name).isEmpty := by
  rw [← hc.report_eq hsize name, (report_perm w name c).isEmpty_eq, List.isEmpty_map]
  rfl

end ConflictTable

end Cyclewise
