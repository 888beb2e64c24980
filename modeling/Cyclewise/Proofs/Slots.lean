import Cyclewise.Proofs.Constants
import Cyclewise.Signal.Script
import Cyclewise.Store.Slots

/-!
# What a store remembers

The lists of a store, changed in place, always show the contents of a `SignalStore` (`Slots.Shows`):
they stay as long as each other, and a write that is refused changes none of them.  So a store is a
map from nets to values (`writeAll_remembers`): a signal reads what was last written, with success,
to any signal connected to it, or else the initial value of its net.
-/

namespace Cyclewise

namespace NetMap

/-- The initial value of a net: its constant, or zero. -/
def initial (m : NetMap) (n : NetId) : UInt64 :=
  match m.driver n with
  | some (.const _ value) => value
  | some (.block _ _) | none => 0

/-- A constant drives the net of the signal. -/
def IsConstant (m : NetMap) (a : SignalId) : Prop :=
  ∃ n k value, m.net? a = some n ∧ m.driver n = some (.const k value)

/-- The last value that writes bring to a net. -/
def lastValue (m : NetMap) (n : NetId) (writes : List (SignalId × UInt64)) : Option UInt64 :=
  (writes.reverse.find? fun w => m.net? w.1 = some n).map Prod.snd

theorem lastValue_cons (m : NetMap) (n : NetId) (a : SignalId) (value : UInt64)
    (writes : List (SignalId × UInt64)) :
    m.lastValue n ((a, value) :: writes) =
      (m.lastValue n writes).or (if m.net? a = some n then some value else none) := by
  unfold lastValue
  rw [List.reverse_cons, List.find?_append, Option.map_or]
  congr 1
  by_cases h : m.net? a = some n
  · simp [h]
  · simp [h]

end NetMap

namespace SignalStore

variable {st st' : SignalStore} {nets : NetMap}

/-- Do writes one after the other, as long as they succeed. -/
def writes (st : SignalStore) (ws : List (SignalId × UInt64)) : Except BlockError SignalStore :=
  ws.foldlM (fun st w => st.write w.1 w.2) st

/-- A write is seen through the signals of its net, and through no other ones. -/
theorem read?_of_write_eq_ite {a s : SignalId} {value : UInt64} {n : NetId}
    (h : st.write a value = .ok st') (hs : st.net? s = some n) :
    st'.read? s = if st.net? a = some n then some value else st.read? s := by
  obtain ⟨m, c, hm, hc, -, -⟩ := write_eq_ok h
  rw [read?_eq, read?_eq st, net?_congr (netOf_of_write h), hs, Option.bind_some, Option.bind_some,
    cell_of_write h]
  by_cases ha : st.net? a = some n
  · obtain rfl := Option.some.inj (hm.symm.trans ha)
    rw [if_pos ha, if_pos ha, hc]
    rfl
  · rw [if_neg ha, if_neg ha]

/-- After successful writes, a signal reads the last one to its net. -/
theorem read?_writes {ws : List (SignalId × UInt64)} (hnet : st.netOf = nets.netOf)
    (h : st.writes ws = .ok st') {s : SignalId} {n : NetId} (hn : nets.net? s = some n) :
    st'.read? s = (nets.lastValue n ws).or (st.read? s) := by
  induction ws generalizing st with
  | nil =>
    obtain rfl := Except.ok.inj h
    rfl
  | cons w ws ih =>
    obtain ⟨a, value⟩ := w
    cases hw : st.write a value with
    | error e =>
      rw [writes, List.foldlM_cons, hw] at h
      cases h
    | ok st₁ =>
      rw [writes, List.foldlM_cons, hw] at h
      have hs : st.net? s = some n := (net?_of_netOf hnet s).trans hn
      rw [ih ((netOf_of_write hw).trans hnet) h, NetMap.lastValue_cons, Option.or_assoc,
        read?_of_write_eq_ite hw hs, net?_of_netOf hnet]
      congr 1
      split <;> rfl

theorem reset_writes {ws : List (SignalId × UInt64)} (h : st.writes ws = .ok st') :
    st'.reset = st.reset := by
  induction ws generalizing st with
  | nil =>
    obtain rfl := Except.ok.inj h
    rfl
  | cons w ws ih =>
    cases hw : st.write w.1 w.2 with
    | error e =>
      rw [writes, List.foldlM_cons, hw] at h
      cases h
    | ok st₁ =>
      rw [writes, List.foldlM_cons, hw] at h
      exact (ih h).trans (reset_of_write hw)

/-- In a store of resolved nets a write fails for an unknown signal and for a constant net. -/
theorem write_outcome {signals : SignalTable} {connections : List Connection} {x : Extraction}
    (h : Resolves signals connections x nets) (hst : st.reset = ofNets nets) (a : SignalId)
    (value : UInt64) :
    nets.net? a = none ∧ st.write a value = .error (.unknownSignal a) ∨
      nets.IsConstant a ∧ st.write a value = .error (.constWrite a) ∨
      (∃ n, nets.net? a = some n) ∧ ¬ nets.IsConstant a ∧ ∃ st', st.write a value = .ok st' := by
  have hnet : st.net? a = nets.net? a := net?_of_netOf (congrArg SignalStore.netOf hst) a
  cases hn : nets.net? a with
  | none =>
    refine .inl ⟨rfl, ?_⟩
    have hcell : st.cell? a = none := by
      unfold net? at hnet
      unfold cell?
      rw [hnet, hn]
      rfl
    unfold SignalStore.write
    rw [hcell]
  | some n =>
    obtain ⟨c, hc, hdriver⟩ := exists_cell hst (h.index_lt_size hn)
    have hcell : st.cell? a = some (n, c) := by
      unfold net? at hnet
      unfold cell at hc
      unfold cell?
      rw [hnet, hn, Option.bind_some, hc, Option.map_some]
    have hfixed : c.fixed = (Cell.ofDriver (nets.driver n)).fixed := (congrArg Cell.fixed hdriver :)
    have hwrite : st.write a value = if c.fixed then .error (.constWrite a)
        else .ok { st with cells := st.cells.modify n.index fun c => { c with value } } := by
      unfold SignalStore.write
      rw [hcell]
    right
    rw [hwrite]
    cases hfix : c.fixed with
    | true =>
      left
      rw [hfix] at hfixed
      refine ⟨?_, rfl⟩
      cases hd : nets.driver n with
      | none =>
        rw [hd] at hfixed
        cases hfixed
      | some d =>
        cases d with
        | block b k =>
          rw [hd] at hfixed
          cases hfixed
        | const k v => exact ⟨n, k, v, hn, hd⟩
    | false =>
      right
      rw [hfix] at hfixed
      refine ⟨⟨n, rfl⟩, ?_, _, rfl⟩
      rintro ⟨m, k, v, hm, hd⟩
      obtain rfl := Option.some.inj (hn.symm.trans hm)
      rw [hd] at hfixed
      cases hfixed

end SignalStore

namespace Slots

/-- The lists hold the contents of the store, one entry for each net that a signal has. -/
structure Shows (t : Slots) (st : SignalStore) : Prop where
  netOf : t.netOf = st.netOf.map some
  fixed : t.fixed = st.cells.map Cell.fixed
  values : t.values = st.cells.map Cell.value
  initial : t.initial = st.cells.map Cell.initial
  lt : ∀ {a n}, st.net? a = some n → n.index < st.cells.size

variable {t : Slots} {st st' : SignalStore}

namespace Shows

variable (h : t.Shows st)

include h

theorem slot?_eq (a : SignalId) : t.slot? a = (st.net? a).map NetId.index := by
  unfold slot? SignalStore.net?
  rw [h.netOf, Array.getElem?_map]
  cases st.netOf[a.index]? <;> rfl

theorem exists_cell {a : SignalId} {n : NetId} (hn : st.net? a = some n) :
    ∃ c, st.cell n = some c ∧ st.cell? a = some (n, c) := by
  have hc := Array.getElem?_eq_getElem (h.lt hn)
  refine ⟨_, hc, ?_⟩
  unfold SignalStore.net? at hn
  unfold SignalStore.cell?
  rw [hn, Option.bind_some, hc, Option.map_some]

theorem read?_eq (a : SignalId) : t.read? a = st.read? a := by
  unfold read?
  rw [h.slot?_eq, SignalStore.read?_eq]
  cases hn : st.net? a with
  | none => rfl
  | some n =>
    obtain ⟨c, hc, -⟩ := h.exists_cell hn
    unfold SignalStore.cell at hc
    rw [Option.map_some, Option.map_some, Option.bind_some, SignalStore.cell, hc, h.values,
      Array.getD_eq_getD_getElem?, Array.getElem?_map, hc]
    rfl

/-- A write in place is that of the store, and a refused one changes nothing. -/
theorem write (a : SignalId) (value : UInt64) :
    (∃ st', st.write a value = .ok st' ∧ (t.write a value).1 = .ok () ∧
      (t.write a value).2.Shows st') ∨
    ∃ e, st.write a value = .error e ∧ t.write a value = (.error e, t) := by
  unfold Slots.write Script.write SignalStore.write
  rw [EStateM.run_bind, EStateM.run_get]
  simp only [h.slot?_eq]
  cases hn : st.net? a with
  | none =>
    right
    have hcell : st.cell? a = none := by
      unfold SignalStore.net? at hn
      unfold SignalStore.cell?
      rw [hn]
      rfl
    rw [hcell]
    exact ⟨_, rfl, rfl⟩
  | some n =>
    obtain ⟨c, hc, hcell⟩ := h.exists_cell hn
    have hfixed : t.fixed.getD n.index false = c.fixed := by
      unfold SignalStore.cell at hc
      rw [h.fixed, Array.getD_eq_getD_getElem?, Array.getElem?_map, hc]
      rfl
    simp only [Option.map_some, hfixed, hcell]
    cases hfix : c.fixed with
    | true => exact .inr ⟨_, rfl, rfl⟩
    | false =>
      have hnext : Shows { t with values := t.values.setIfInBounds n.index value }
          { st with cells := st.cells.modify n.index fun c => { c with value } } := by
        refine ⟨h.netOf, ?_, ?_, ?_, fun hm => ?_⟩
        · rw [h.fixed, map_modify]
          exact fun _ => rfl
        · rw [h.values]
          apply Array.ext_getElem?
          intro i
          rw [Array.getElem?_setIfInBounds, Array.getElem?_map, Array.getElem?_map,
            Array.getElem?_modify, Array.size_map]
          by_cases hi : n.index = i
          · subst hi
            simp [h.lt hn]
          · rw [if_neg hi, if_neg hi]
        · rw [h.initial, map_modify]
          exact fun _ => rfl
        · rw [Array.size_modify]
          exact h.lt hm
      exact .inl ⟨_, rfl, rfl, hnext⟩

theorem map_write (a : SignalId) (value : UInt64) :
    (st.write a value).map (fun _ => ()) = (t.write a value).1 := by
  rcases h.write a value with ⟨st', hw, hok, -⟩ | ⟨e, hw, hrefused⟩
  · rw [hw, hok]
    rfl
  · rw [hw, hrefused]
    rfl

end Shows

/-! ## The lists of a new store -/

/-- Going through the constant nets changes a list into one of the cells of a new store. -/
theorem foldl_constants {α : Type} (nets : NetMap) (f : Cell → α) :
    nets.constants.foldl (fun xs e => xs.modify e.1.index fun _ => f ⟨e.2, e.2, true⟩)
        (Array.replicate nets.size (f ⟨0, 0, false⟩)) =
      (SignalStore.ofNets nets).cells.map f := by
  apply Array.ext_getElem?
  intro i
  have hcells : (SignalStore.ofNets nets).cells[i]? =
      nets.nets[i]?.map fun net => Cell.ofDriver net.driver :=
    Array.getElem?_map
  rw [getElem?_foldl_modify (fun e : NetId × UInt64 => e.1.index)
      (fun e _ => f ⟨e.2, e.2, true⟩), Array.getElem?_map, hcells]
  by_cases hi : i < nets.size
  · have hentry : nets.nets[i]? = some (nets.get ⟨i⟩) := by
      unfold NetMap.get
      rw [Array.getD_eq_getD_getElem?, Array.getElem?_eq_getElem hi, Option.getD_some]
    -- of all nets, only this one changes the entry
    have honly : nets.ids.filter (fun n => n.index = i) = [⟨i⟩] := by
      refine @eq_of_ascending _ NetId.index _ _ ?_ (List.pairwise_singleton ..) fun n => ?_
      · refine List.Pairwise.filter _ (List.pairwise_map.2 ?_)
        exact List.pairwise_lt_range
      · unfold NetMap.ids
        simp only [List.mem_filter, List.mem_map, List.mem_range, List.mem_singleton,
          decide_eq_true_eq]
        constructor
        · rintro ⟨-, rfl⟩
          rfl
        · rintro rfl
          exact ⟨⟨i, hi, rfl⟩, rfl⟩
    have hfold : ∀ c, nets.constants.foldl
        (fun y e => if e.1.index = i then f ⟨e.2, e.2, true⟩ else y) c =
        (nets.ids.filter fun n => n.index = i).foldl
          (fun y n => match nets.driver n with
            | some (.const _ value) => f ⟨value, value, true⟩
            | some (.block _ _) | none => y) c := by
      intro c
      unfold NetMap.constants
      rw [List.foldl_filterMap, List.foldl_filter]
      refine congrArg (fun g => nets.ids.foldl g c) (funext fun y => funext fun n => ?_)
      rcases hd : nets.driver n with _ | ⟨b, k⟩ | ⟨k, value⟩ <;> simp
    have hreplicate :
        (Array.replicate nets.size (f ⟨0, 0, false⟩))[i]? = some (f ⟨0, 0, false⟩) := by
      rw [Array.getElem?_replicate, if_pos hi]
    rw [hreplicate, hentry, Option.map_some, Option.map_some, Option.map_some, hfold, honly,
      List.foldl_cons, List.foldl_nil]
    have hdriver : (nets.get ⟨i⟩).driver = nets.driver ⟨i⟩ := rfl
    rw [hdriver]
    rcases nets.driver ⟨i⟩ with _ | ⟨b, k⟩ | ⟨k, value⟩ <;> rfl
  · have hentry : nets.nets[i]? = none := Array.getElem?_eq_none (Nat.le_of_not_lt hi)
    rw [hentry, Array.getElem?_eq_none (by rw [Array.size_replicate]; exact Nat.le_of_not_lt hi)]
    rfl

/-- New lists show a new store. -/
theorem shows_ofNets {signals : SignalTable} {connections : List Connection} {x : Extraction}
    {nets : NetMap} (h : Resolves signals connections x nets) :
    (ofNets signals nets).Shows (.ofNets nets) where
  netOf := by
    have hnet : ∀ i : Nat, nets.netOf[i]? = nets.net? ⟨i⟩ := fun _ => rfl
    show (signals.ids.map nets.net?).toArray = nets.netOf.map some
    apply Array.ext_getElem?
    intro i
    rw [List.getElem?_toArray, Array.getElem?_map, hnet, List.getElem?_map]
    unfold SignalTable.ids
    rw [List.getElem?_map]
    by_cases hi : i < signals.size
    · obtain ⟨n, hn⟩ := h.exists_net? (s := ⟨i⟩) hi
      rw [List.getElem?_range hi, hn, Option.map_some, Option.map_some, Option.map_some, hn]
    · have hnone : nets.net? ⟨i⟩ = none := by
        cases hn : nets.net? ⟨i⟩ with
        | none => rfl
        | some n => exact absurd (h.lt_of_net? hn) hi
      rw [hnone, List.getElem?_eq_none (by simpa using hi)]
      rfl
  fixed := foldl_constants nets Cell.fixed
  values := by
    -- nets start at their initial values
    have hvalue : (SignalStore.ofNets nets).cells.map Cell.initial =
        (SignalStore.ofNets nets).cells.map Cell.value := by
      unfold SignalStore.ofNets
      rw [Array.map_map, Array.map_map]
      congr 1
      funext net
      show (Cell.ofDriver net.driver).initial = (Cell.ofDriver net.driver).value
      rcases net.driver with _ | ⟨b, k⟩ | ⟨k, value⟩ <;> rfl
    exact (foldl_constants nets Cell.initial).trans hvalue
  initial := foldl_constants nets Cell.initial
  lt hn := by
    show _ < (Array.map _ _).size
    rw [Array.size_map]
    exact h.index_lt_size hn

/-! ## Writes in place -/

/-- Whatever was written, the lists show what the successful writes make of the store. -/
theorem Shows.writeAll (h : t.Shows st) (ws : List (SignalId × UInt64)) :
    ∃ st', st.writes (t.writeAll ws).1 = .ok st' ∧ (t.writeAll ws).2.Shows st' := by
  induction ws generalizing t st with
  | nil => exact ⟨st, rfl, h⟩
  | cons w ws ih =>
    obtain ⟨a, value⟩ := w
    rw [Slots.writeAll]
    rcases h.write a value with ⟨st₁, hw, houtcome, hshows⟩ | ⟨e, -, hrefused⟩
    · obtain ⟨st', hst', hall⟩ := ih hshows
      simp only [houtcome]
      refine ⟨st', ?_, hall⟩
      rw [SignalStore.writes, List.foldlM_cons, hw]
      exact hst'
    · simp only [hrefused]
      exact ih h

/-- The lists hold, for each net, the last of these values that was written to it. -/
structure Remembers (signals : SignalTable) (nets : NetMap) (done : List (SignalId × UInt64))
    (t : Slots) : Prop where
  netOf_size : t.netOf.size = signals.size
  fixed_size : t.fixed.size = nets.size
  values_size : t.values.size = nets.size
  initial_size : t.initial.size = nets.size
  read : ∀ s n, nets.net? s = some n →
    t.read? s = some ((nets.lastValue n done).getD (nets.initial n))
  read_unknown : ∀ s, ¬ s.index < signals.size → t.read? s = none
  write_unknown : ∀ s value,
    (t.write s value).1 = .error (.unknownSignal s) ↔ ¬ s.index < signals.size
  write_constant : ∀ s value, (t.write s value).1 = .error (.constWrite s) ↔ nets.IsConstant s
  write_ok : ∀ s value,
    (t.write s value).1 = .ok () ↔ s.index < signals.size ∧ ¬ nets.IsConstant s
  /-- A refused write changes nothing. -/
  refused : ∀ s value, (t.write s value).1 ≠ .ok () → (t.write s value).2 = t
  /-- A write is not seen in other nets. -/
  elsewhere : ∀ s value a, nets.net? a ≠ nets.net? s → (t.write s value).2.read? a = t.read? a

variable {signals : SignalTable} {connections : List Connection} {x : Extraction} {nets : NetMap}

/-- How a write in place ends: refused without effect, or done. -/
theorem Shows.write_outcome (hnets : Resolves signals connections x nets)
    (hreset : st.reset = .ofNets nets) (h : t.Shows st) (s : SignalId) (value : UInt64) :
    nets.net? s = none ∧ t.write s value = (.error (.unknownSignal s), t) ∨
      nets.IsConstant s ∧ t.write s value = (.error (.constWrite s), t) ∨
      (∃ n, nets.net? s = some n) ∧ ¬ nets.IsConstant s ∧ ∃ st', st.write s value = .ok st' ∧
        (t.write s value).1 = .ok () ∧ (t.write s value).2.Shows st' := by
  have hwrite := h.write s value
  rcases SignalStore.write_outcome hnets hreset s value with
    ⟨hnone, hw⟩ | ⟨hconst, hw⟩ | ⟨hknown, hfree, st', hw⟩
  · rcases hwrite with ⟨st', hw', -⟩ | ⟨e, hw', hrefused⟩
    · rw [hw] at hw'
      cases hw'
    · rw [hw] at hw'
      exact .inl ⟨hnone, Except.error.inj hw' ▸ hrefused⟩
  · rcases hwrite with ⟨st', hw', -⟩ | ⟨e, hw', hrefused⟩
    · rw [hw] at hw'
      cases hw'
    · rw [hw] at hw'
      exact .inr (.inl ⟨hconst, Except.error.inj hw' ▸ hrefused⟩)
  · rcases hwrite with hdone | ⟨e, hw', -⟩
    · exact .inr (.inr ⟨hknown, hfree, hdone⟩)
    · rw [hw] at hw'
      cases hw'

theorem Shows.remembers (hnets : Resolves signals connections x nets)
    {done : List (SignalId × UInt64)} (hst : (SignalStore.ofNets nets).writes done = .ok st)
    (h : t.Shows st) : t.Remembers signals nets done := by
  have hreset : st.reset = .ofNets nets :=
    (SignalStore.reset_writes hst).trans (SignalStore.reset_ofNets nets)
  have hnetOf : st.netOf = nets.netOf := (congrArg SignalStore.netOf hreset :)
  have hnet := SignalStore.net?_of_netOf hnetOf
  have hcells : st.cells.size = nets.size := by
    have hsize := congrArg (fun st => st.cells.size) hreset
    simpa [SignalStore.reset, SignalStore.ofNets, NetMap.size] using hsize
  have hknown := hnets.exists_net?_iff
  have hunknown : ∀ s, nets.net? s = none ↔ ¬ s.index < signals.size := fun s => by
    rw [← hknown s, Option.eq_none_iff_forall_ne_some, not_exists]
  have hconstant : ∀ s, nets.IsConstant s → s.index < signals.size := by
    rintro s ⟨n, k, v, hn, -⟩
    exact hnets.lt_of_net? hn
  have houtcome := h.write_outcome hnets hreset
  refine ⟨?_, ?_, ?_, ?_, fun s n hn => ?_, fun s hs => ?_, fun s value => ?_, fun s value => ?_,
    fun s value => ?_, fun s value hfail => ?_, fun s value a ha => ?_⟩
  · have hsize := congrArg Array.size (shows_ofNets hnets).netOf
    rw [h.netOf, Array.size_map, hnetOf, ← Array.size_map (f := some)]
    refine hsize.symm.trans ?_
    show (signals.ids.map nets.net?).toArray.size = _
    simp [SignalTable.ids]
  · rw [h.fixed, Array.size_map, hcells]
  · rw [h.values, Array.size_map, hcells]
  · rw [h.initial, Array.size_map, hcells]
  · -- before any write, a net holds its initial value
    have hstart : (SignalStore.ofNets nets).read? s = some (nets.initial n) := by
      have hs : (SignalStore.ofNets nets).net? s = some n := hn
      rw [SignalStore.read?_eq, hs, Option.bind_some,
        SignalStore.cell_ofNets (hnets.index_lt_size hn), Option.map_some]
      congr 1
      unfold NetMap.initial Cell.ofDriver
      rcases nets.driver n with _ | ⟨b, k⟩ | ⟨k, value⟩ <;> rfl
    rw [h.read?_eq, SignalStore.read?_writes rfl hst hn, hstart]
    cases nets.lastValue n done <;> rfl
  · rw [h.read?_eq, SignalStore.read?_eq, hnet, (hunknown s).2 hs, Option.bind_none]
  · rw [← hunknown s]
    rcases houtcome s value with ⟨hnone, hw⟩ | ⟨⟨n, k, v, hn, -⟩, hw⟩ | ⟨⟨n, hn⟩, -, st', -, hok, -⟩
    · simp [hw, hnone]
    · simp [hw, hn]
    · simp [hok, hn]
  · rcases houtcome s value with ⟨hnone, hw⟩ | ⟨hconst, hw⟩ | ⟨-, hfree, st', -, hok, -⟩
    · have hfree : ¬ nets.IsConstant s := fun hc => (hunknown s).1 hnone (hconstant s hc)
      simp [hw, hfree]
    · simp [hw, hconst]
    · simp [hok, hfree]
  · rcases houtcome s value with ⟨hnone, hw⟩ | ⟨hconst, hw⟩ | ⟨hsome, hfree, st', -, hok, -⟩
    · simp [hw, (hunknown s).1 hnone]
    · simp [hw, hconst]
    · simp [hok, hfree, (hknown s).1 hsome]
  · rcases houtcome s value with ⟨-, hw⟩ | ⟨-, hw⟩ | ⟨-, -, st', -, hok, -⟩
    · rw [hw]
    · rw [hw]
    · exact absurd hok hfail
  · rcases houtcome s value with ⟨-, hw⟩ | ⟨-, hw⟩ | ⟨⟨n, hn⟩, -, st', hw, -, hshows⟩
    · rw [hw]
    · rw [hw]
    · rw [hshows.read?_eq, h.read?_eq]
      refine SignalStore.read?_congr (SignalStore.netOf_of_write hw) fun m hm => ?_
      rw [SignalStore.cell_of_write hw, if_neg]
      intro hs
      rw [hnet] at hm hs
      exact ha (hm.trans hs.symm)

/-- **Memory.**  Whatever is written to the store of resolved nets, a signal reads what was last
written with success to a signal connected to it, or else the initial value of its net.  A write is
refused for an undeclared signal and for a net that a constant drives; it is not seen in other nets,
and a refused one not at all.  The lists in place are those of a `SignalStore` throughout. -/
theorem writeAll_remembers {options : ResolveOptions}
    (h : resolve signals connections x options = .ok nets) (ws : List (SignalId × UInt64)) :
    (∀ s, (∃ n, nets.net? s = some n) ↔ s.index < signals.size) ∧
    (∀ s s', s.index < signals.size → s'.index < signals.size →
      (nets.net? s = nets.net? s' ↔ Connected connections s s')) ∧
    ((ofNets signals nets).writeAll ws).2.Remembers signals nets
      ((ofNets signals nets).writeAll ws).1 ∧
    ∃ st, (SignalStore.ofNets nets).writes ((ofNets signals nets).writeAll ws).1 = .ok st ∧
      ((ofNets signals nets).writeAll ws).2.Shows st ∧
      (∀ s, st.read? s = ((ofNets signals nets).writeAll ws).2.read? s) ∧
      ∀ s value, (st.write s value).map (fun _ => ()) =
        (((ofNets signals nets).writeAll ws).2.write s value).1 := by
  have hnets := resolve_eq_ok h
  obtain ⟨st, hst, hshows⟩ := (shows_ofNets hnets).writeAll ws
  exact ⟨hnets.exists_net?_iff, fun s s' hs hs' => hnets.net?_eq_iff hs hs',
    hshows.remembers hnets hst, st, hst, hshows, fun s => (hshows.read?_eq s).symm,
    hshows.map_write⟩

/-- Three wires and a constant. -/
def wires : SignalTable :=
  .after [.declare "a" .wire "Bits8" Hierarchy.top, .declare "b" .wire "Bits8" Hierarchy.top,
    .declare "k" (.const 42) "Bits8" Hierarchy.top, .declare "c" .wire "Bits8" Hierarchy.top]

/-- Signal 0 is connected to signal 1, and signal 3 to the constant.  The writes to signals 0 and 1
go to one net, and those to signals 3 and 7 are refused. -/
theorem wires_remember : ∃ nets,
    resolve wires [⟨⟨0⟩, ⟨1⟩⟩, ⟨⟨3⟩, ⟨2⟩⟩] .empty ⟨false, Hierarchy.top⟩ = .ok nets ∧
    ∃ t, (ofNets wires nets).writeAll [(⟨0⟩, 9), (⟨3⟩, 1), (⟨1⟩, 4), (⟨7⟩, 5)] =
        ([(⟨0⟩, 9), (⟨1⟩, 4)], t) ∧
      t.read? ⟨0⟩ = some 4 ∧ t.read? ⟨3⟩ = some 42 ∧ t.read? ⟨7⟩ = none ∧
      ∀ value, (t.write ⟨2⟩ value).1 = .error (.constWrite ⟨2⟩) := by
  have hcheck : ((resolve wires [⟨⟨0⟩, ⟨1⟩⟩, ⟨⟨3⟩, ⟨2⟩⟩] .empty
      ⟨false, Hierarchy.top⟩).toOption.any fun nets =>
      decide (((ofNets wires nets).writeAll [(⟨0⟩, 9), (⟨3⟩, 1), (⟨1⟩, 4), (⟨7⟩, 5)]).1 =
        [(⟨0⟩, 9), (⟨1⟩, 4)]) &&
      decide (nets.net? ⟨0⟩ = some ⟨0⟩) && decide (nets.net? ⟨3⟩ = some ⟨1⟩) &&
      decide (nets.net? ⟨2⟩ = some ⟨1⟩) && decide (nets.driver ⟨1⟩ = some (.const ⟨2⟩ 42)) &&
      decide (nets.lastValue ⟨0⟩ [(⟨0⟩, 9), (⟨1⟩, 4)] = some 4) &&
      decide (nets.lastValue ⟨1⟩ [(⟨0⟩, 9), (⟨1⟩, 4)] = none)) = true := by
    decide +kernel
  obtain ⟨nets, hnets, hcheck⟩ := Design.exists_ok_of_any hcheck
  simp only [Bool.and_eq_true, decide_eq_true_eq] at hcheck
  obtain ⟨⟨⟨⟨⟨⟨hdone, h₀⟩, h₃⟩, h₂⟩, hconst⟩, hlast₀⟩, hlast₁⟩ := hcheck
  obtain ⟨-, -, hremembers, -⟩ :=
    writeAll_remembers hnets [(⟨0⟩, 9), (⟨3⟩, 1), (⟨1⟩, 4), (⟨7⟩, 5)]
  rw [hdone] at hremembers
  refine ⟨nets, hnets, _, Prod.ext hdone rfl, ?_, ?_, ?_, fun value => ?_⟩
  · rw [hremembers.read _ _ h₀, hlast₀]
    rfl
  · rw [hremembers.read _ _ h₃, hlast₁, NetMap.initial, hconst]
    rfl
  · exact hremembers.read_unknown _ (by decide +kernel)
  · exact (hremembers.write_constant _ value).2 ⟨⟨1⟩, ⟨2⟩, 42, h₂, hconst⟩

end Slots

end Cyclewise
