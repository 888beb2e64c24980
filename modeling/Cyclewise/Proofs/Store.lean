import Mathlib.Logic.Relation
import Cyclewise.Proofs.Arrays
import Cyclewise.Store

/-!
# Reads and writes of a store, net by net

A read of a signal looks at the cell of its net (`read?_eq`), and a successful write changes the
value of that cell and no other one (`cell_of_write`).  Both depend on that cell only
(`write_congr`).
-/

namespace Cyclewise

namespace SignalStore

variable {st st' : SignalStore} {a : SignalId} {n m : NetId} {c : Cell} {v : UInt64}

/-- The net of a signal. -/
def net? (st : SignalStore) (a : SignalId) : Option NetId := st.netOf[a.index]?

/-- The cell of a net. -/
def cell (st : SignalStore) (n : NetId) : Option Cell := st.cells[n.index]?

theorem ext_cell (hnet : st'.netOf = st.netOf) (hcell : ∀ n, st'.cell n = st.cell n) :
    st' = st := by
  obtain ⟨netOf, cells⟩ := st
  obtain ⟨netOf', cells'⟩ := st'
  obtain rfl : netOf' = netOf := hnet
  have h : cells' = cells := Array.ext_getElem? fun i => hcell ⟨i⟩
  rw [h]

theorem net?_congr (h : st'.netOf = st.netOf) (a : SignalId) : st'.net? a = st.net? a := by
  unfold net?
  rw [h]

/-- Signals have their nets in a store of a net map. -/
theorem net?_of_netOf {nets : NetMap} (h : st.netOf = nets.netOf) (a : SignalId) :
    st.net? a = nets.net? a := by
  unfold net? NetMap.net?
  rw [h]

theorem read?_eq (st : SignalStore) (a : SignalId) :
    st.read? a = (st.net? a).bind fun n => (st.cell n).map Cell.value := by
  unfold read? cell? net? cell
  cases st.netOf[a.index]? with
  | none => rfl
  | some n =>
    show ((st.cells[n.index]?).map fun c => (n, c)).map (fun p => p.2.value) =
      (st.cells[n.index]?).map Cell.value
    rw [Option.map_map]
    rfl

/-- A read depends on the cell of the net only. -/
theorem read?_congr (h : st'.netOf = st.netOf)
    (hcell : ∀ n, st.net? a = some n → st'.cell n = st.cell n) : st'.read? a = st.read? a := by
  rw [read?_eq, read?_eq, net?_congr h]
  cases hn : st.net? a with
  | none => rfl
  | some n => rw [Option.bind_some, Option.bind_some, hcell n hn]

theorem write_eq_ok (h : st.write a v = .ok st') :
    ∃ n c, st.net? a = some n ∧ st.cell n = some c ∧ c.fixed = false ∧
      st' = { st with cells := st.cells.modify n.index fun c => { c with value := v } } := by
  unfold write at h
  split at h
  · cases h
  · next n c hcell =>
    obtain ⟨n', hn, hc⟩ := Option.bind_eq_some_iff.1 hcell
    obtain ⟨c', hc', heq⟩ := Option.map_eq_some_iff.1 hc
    obtain ⟨rfl, rfl⟩ := Prod.mk.inj heq
    split at h
    · cases h
    · next hfixed =>
      rw [Bool.not_eq_true] at hfixed
      exact ⟨n', c', hn, hc', hfixed, (Except.ok.inj h).symm⟩

theorem netOf_of_write (h : st.write a v = .ok st') : st'.netOf = st.netOf := by
  obtain ⟨n, c, -, -, -, rfl⟩ := write_eq_ok h
  rfl

/-- A write changes nothing that a reset does not set back. -/
theorem reset_of_write (h : st.write a v = .ok st') : st'.reset = st.reset := by
  obtain ⟨n, c, -, -, -, rfl⟩ := write_eq_ok h
  unfold reset
  congr 1
  apply Array.ext_getElem?
  intro i
  rw [Array.getElem?_map, Array.getElem?_map, Array.getElem?_modify]
  split
  · rw [Option.map_map]
    rfl
  · rfl

/-- A write changes the cell of the net that it goes to. -/
theorem cell_of_write (h : st.write a v = .ok st') (m : NetId) :
    st'.cell m =
      if st.net? a = some m then (st.cell m).map fun c => { c with value := v } else st.cell m := by
  obtain ⟨n, c, hn, -, -, rfl⟩ := write_eq_ok h
  unfold cell
  rw [Array.getElem?_modify]
  by_cases hnm : n = m
  · subst hnm
    rw [if_pos rfl, if_pos hn]
  · have hindex : n.index ≠ m.index := by
      intro hindex
      cases n
      cases m
      exact hnm (congrArg NetId.mk hindex)
    rw [if_neg hindex, if_neg fun e => hnm (Option.some.inj (hn.symm.trans e))]

/-- A write to a cell that is not fixed succeeds. -/
theorem exists_write (hn : st.net? a = some n) (hc : st.cell n = some c) (hfree : c.fixed = false)
    (v : UInt64) : ∃ st', st.write a v = .ok st' := by
  have hcell : st.cell? a = some (n, c) := by
    unfold net? at hn
    unfold cell at hc
    unfold cell?
    rw [hn, Option.bind_some, hc, Option.map_some]
  unfold write
  rw [hcell]
  simp only [hfree]
  exact ⟨_, rfl⟩

/-- A signal reads what was written to it. -/
theorem read?_of_write (h : st.write a v = .ok st') : st'.read? a = some v := by
  obtain ⟨n, c, hn, hc, -, -⟩ := write_eq_ok h
  rw [read?_eq, net?_congr (netOf_of_write h), hn, Option.bind_some, cell_of_write h, if_pos hn, hc,
    Option.map_some, Option.map_some]

/-- Whether a write succeeds, and how it fails, depends on the cell of its signal only. -/
theorem write_congr (h : st'.cell? a = st.cell? a) :
    (∀ u, st.write a v = .ok u → ∃ u', st'.write a v = .ok u') ∧
      ∀ e, st.write a v = .error e → st'.write a v = .error e := by
  unfold SignalStore.write
  rw [h]
  cases st.cell? a with
  | none => exact ⟨fun u hu => (by cases hu), fun e he => he⟩
  | some p =>
    obtain ⟨n, c⟩ := p
    simp only
    by_cases hfixed : c.fixed = true
    · rw [if_pos hfixed, if_pos hfixed]
      exact ⟨fun u hu => (by cases hu), fun e he => he⟩
    · rw [if_neg hfixed, if_neg hfixed]
      exact ⟨fun u _ => ⟨_, rfl⟩, fun e he => (by cases he)⟩

/-! ## Resetting -/

theorem netOf_of_reset (h : st'.reset = st.reset) : st'.netOf = st.netOf := by
  have hnet := congrArg SignalStore.netOf h
  exact hnet

theorem size_of_reset (h : st'.reset = st.reset) : st'.cells.size = st.cells.size := by
  have hsize := congrArg (fun st => st.cells.size) h
  simpa [reset] using hsize

theorem reset_reset (st : SignalStore) : st.reset.reset = st.reset := by
  unfold reset
  rw [Array.map_map]
  rfl

theorem reset_ofNets (nets : NetMap) : (ofNets nets).reset = ofNets nets := by
  unfold reset ofNets
  rw [Array.map_map]
  have hcell : ∀ driver : Option Driver,
      { Cell.ofDriver driver with value := (Cell.ofDriver driver).initial } =
        Cell.ofDriver driver := by
    intro driver
    unfold Cell.ofDriver
    split <;> rfl
  congr 2
  funext net
  exact hcell net.driver

/-! ## Carrying values over -/

/-- The members of a net, ascending. -/
def members (st : SignalStore) (n : NetId) : List SignalId :=
  (st.netOf.toList.zipIdx.filter fun (n', _) => n' = n).map fun (_, i) => ⟨i⟩

theorem mem_members : a ∈ st.members n ↔ st.net? a = some n := by
  unfold members net?
  rw [List.mem_map, ← Array.getElem?_toList]
  constructor
  · rintro ⟨⟨n', i⟩, hmem, rfl⟩
    obtain ⟨hi, hn⟩ := List.mem_filter.1 hmem
    obtain rfl : n' = n := of_decide_eq_true hn
    exact List.mem_zipIdx_iff_getElem?.1 hi
  · intro hn
    exact ⟨(n, a.index), List.mem_filter.2 ⟨List.mem_zipIdx_iff_getElem?.2 hn, by simp⟩, rfl⟩

theorem members_ascend (st : SignalStore) (n : NetId) :
    (st.members n).Pairwise (·.index < ·.index) := by
  have hindices : (st.netOf.toList.zipIdx.map Prod.snd).Pairwise (· < ·) := by
    rw [List.zipIdx_map_snd]
    exact List.pairwise_lt_range'
  exact List.pairwise_map.2 ((List.pairwise_map.1 hindices).filter _)

/-- A cell that was filled is left alone. -/
theorem foldl_takeOver_filled (earlier : SignalStore) (c : Cell) (as : List SignalId) :
    as.foldl (fun p a => takeOver earlier a p) (c, true) = (c, true) := by
  induction as with
  | nil => rfl
  | cons a as ih => exact ih

/-- The first covered signal fills a cell that takes writes. -/
theorem foldl_takeOver (earlier : SignalStore) (c : Cell) (as : List SignalId) :
    (as.foldl (fun p a => takeOver earlier a p) (c, false)).1 =
      if c.fixed then c else { c with value := (as.findSome? earlier.read?).getD c.value } := by
  induction as with
  | nil => simp
  | cons a as ih =>
    rw [List.foldl_cons, List.findSome?_cons]
    by_cases hfixed : c.fixed = true
    · have hstep : takeOver earlier a (c, false) = (c, false) := by simp [takeOver, hfixed]
      rw [hstep, ih, if_pos hfixed, if_pos hfixed]
    · rw [if_neg hfixed] at ih ⊢
      cases hread : earlier.read? a with
      | none =>
        have hstep : takeOver earlier a (c, false) = (c, false) := by
          simp [takeOver, hfixed, hread]
        rw [hstep, ih]
      | some value =>
        have hstep : takeOver earlier a (c, false) = ({ c with value }, true) := by
          simp [takeOver, hfixed, hread]
        rw [hstep, foldl_takeOver_filled, Option.getD_some]

/-- A net gets the value of the lowest of its members that the earlier store covers, unless it takes
no writes. -/
theorem cell_carry (st earlier : SignalStore) (n : NetId) :
    (st.carry earlier).cell n = (st.cell n).map fun c =>
      if c.fixed then c
      else { c with value := ((st.members n).findSome? earlier.read?).getD c.value } := by
  unfold cell carry
  simp only
  rw [Array.getElem?_map, getElem?_foldl_modify (fun e : NetId × Nat => e.1.index)
    (fun e => takeOver earlier ⟨e.2⟩), Array.getElem?_map, Option.map_map, Option.map_map]
  refine congrFun (congrArg Option.map (funext fun c => ?_)) _
  have hmembers : st.netOf.toList.zipIdx.foldl
      (fun p e => if e.1.index = n.index then takeOver earlier ⟨e.2⟩ p else p) (c, false) =
        (st.members n).foldl (fun p a => takeOver earlier a p) (c, false) := by
    have hindex : ∀ m : NetId, m.index = n.index ↔ m = n := fun m =>
      ⟨congrArg NetId.mk, congrArg NetId.index⟩
    unfold members
    rw [List.foldl_map, List.foldl_filter]
    simp only [hindex, decide_eq_true_eq]
  rw [Function.comp_apply, Function.comp_apply, hmembers, foldl_takeOver]

theorem reset_carry (st earlier : SignalStore) : (st.carry earlier).reset = st.reset := by
  refine ext_cell rfl fun n => ?_
  show ((st.carry earlier).cells.map _)[n.index]? = (st.cells.map _)[n.index]?
  rw [Array.getElem?_map, Array.getElem?_map]
  show ((st.carry earlier).cell n).map _ = (st.cell n).map _
  rw [cell_carry, Option.map_map]
  refine congrFun (congrArg Option.map (funext fun c => ?_)) _
  rw [Function.comp_apply]
  split <;> rfl

/-! ## Updates -/

/-- Writes and resets lead from one store to another one. -/
def Updates : SignalStore → SignalStore → Prop :=
  Relation.ReflTransGen fun st st' => (∃ a v, st.write a v = .ok st') ∨ st' = st.reset

theorem updates_write (h : st.write a v = .ok st') : st.Updates st' := .single (.inl ⟨a, v, h⟩)

theorem updates_reset (st : SignalStore) : st.Updates st.reset := .single (.inr rfl)

/-- Updates change nothing that a reset does not set back. -/
theorem Updates.reset_eq (h : st.Updates st') : st'.reset = st.reset := by
  induction h with
  | refl => rfl
  | tail _ hstep ih =>
    rcases hstep with ⟨a, v, hw⟩ | rfl
    · exact (reset_of_write hw).trans ih
    · exact (reset_reset _).trans ih

/-- Cells that take no writes hold their initial values. -/
def Steady (st : SignalStore) : Prop :=
  ∀ n c, st.cell n = some c → c.fixed = true → c.value = c.initial

theorem steady_reset (st : SignalStore) : st.reset.Steady := by
  intro n c hc _
  unfold cell reset at hc
  rw [Array.getElem?_map] at hc
  obtain ⟨c', -, rfl⟩ := Option.map_eq_some_iff.1 hc
  rfl

theorem steady_ofNets (nets : NetMap) : (ofNets nets).Steady := by
  rw [← reset_ofNets]
  exact steady_reset _

theorem Steady.write (hst : st.Steady) (h : st.write a v = .ok st') : st'.Steady := by
  intro m c' hc' hfixed
  obtain ⟨n, c, hn, hc, hfree, -⟩ := write_eq_ok h
  rw [cell_of_write h] at hc'
  split at hc'
  · next hm =>
    obtain rfl := Option.some.inj (hn.symm.trans hm)
    rw [hc] at hc'
    obtain rfl := Option.some.inj hc'
    exact absurd (hfixed.symm.trans hfree) Bool.noConfusion
  · exact hst m c' hc' hfixed

theorem Steady.updates (hst : st.Steady) (h : st.Updates st') : st'.Steady := by
  induction h with
  | refl => exact hst
  | tail _ hstep ih =>
    rcases hstep with ⟨a, v, hw⟩ | rfl
    · exact ih.write hw
    · exact steady_reset _

theorem Steady.carry (hst : st.Steady) (earlier : SignalStore) : (st.carry earlier).Steady := by
  intro n c' hc' hfixed
  rw [cell_carry] at hc'
  obtain ⟨c, hc, rfl⟩ := Option.map_eq_some_iff.1 hc'
  by_cases h : c.fixed = true
  · rw [if_pos h]
    exact hst n c hc h
  · rw [if_neg h] at hfixed
    exact absurd hfixed h

/-! ## Agreement -/

/-- Two stores agree on some nets: signals have the same nets, and these nets the same cells. -/
structure AgreeOn (N : NetId → Prop) (st st' : SignalStore) : Prop where
  netOf_eq : st'.netOf = st.netOf
  cell_eq : ∀ n, N n → st'.cell n = st.cell n

theorem AgreeOn.cell?_eq {N : NetId → Prop} (h : AgreeOn N st st')
    (ha : ∀ n, st.net? a = some n → N n) : st'.cell? a = st.cell? a := by
  unfold cell?
  rw [h.netOf_eq]
  cases hn : st.netOf[a.index]? with
  | none => rfl
  | some n =>
    have hcell : st'.cells[n.index]? = st.cells[n.index]? := h.cell_eq n (ha n hn)
    rw [Option.bind_some, Option.bind_some, hcell]

/-- A write to one of the nets succeeds in both stores and keeps them in agreement, or it fails in
both for the same reason. -/
theorem AgreeOn.write {N : NetId → Prop} (h : AgreeOn N st st')
    (ha : ∀ n, st.net? a = some n → N n) (v : UInt64) :
    (∃ u u', st.write a v = .ok u ∧ st'.write a v = .ok u' ∧ AgreeOn N u u') ∨
      ∃ e, st.write a v = .error e ∧ st'.write a v = .error e := by
  have hcongr := write_congr (v := v) (h.cell?_eq ha)
  cases hw : st.write a v with
  | error e => exact .inr ⟨e, rfl, hcongr.2 e hw⟩
  | ok u =>
    obtain ⟨u', hw'⟩ := hcongr.1 u hw
    refine .inl ⟨u, u', rfl, hw', ?_, fun n hn => ?_⟩
    · rw [netOf_of_write hw', netOf_of_write hw, h.netOf_eq]
    · rw [cell_of_write hw', cell_of_write hw, net?_congr h.netOf_eq, h.cell_eq n hn]

end SignalStore

end Cyclewise
