import Mathlib.Data.List.Pairwise
import Cyclewise.Proofs.Block.Confined
import Cyclewise.Proofs.Tick

/-!
# Steps that commute

A step is declared if it stays within the nets that its block reads and writes.  Two declared steps
commute if neither writes a net that the other one uses (`Effect.swap`).  So steps can be permuted
as long as pairs that do not commute keep their order (`completes_of_perm`).
-/

namespace Cyclewise

/-- A block reads or writes a net. -/
def NetMap.Uses (nets : NetMap) (b : BlockId) (n : NetId) : Prop :=
  b ∈ nets.readers n ∨ b ∈ nets.writers n

/-- No net that the first block writes is used by the second one. -/
def NetMap.Clear (nets : NetMap) (a b : BlockId) : Prop :=
  ∀ n, a ∈ nets.writers n → ¬ nets.Uses b n

namespace Step

variable {μ : Type} {nets : NetMap} {s t : Step μ} {cycle : Nat} {n : NetId}

/-- A step reads and writes nets that its block reads and writes. -/
def Declared (nets : NetMap) (s : Step μ) : Prop :=
  ∀ cycle (m : Machine μ SignalStore), ∀ ev ∈ s.trace cycle m, ev.Within
    (fun a => ∀ n, nets.net? a = some n → s.block ∈ nets.readers n)
    (fun a => ∀ n, nets.net? a = some n → s.block ∈ nets.writers n)

theorem run_eq_ok {m m' : Machine μ SignalStore} : s.run cycle m = (.ok (), m') ↔
    (s.behavior s.block cycle m.memory).run m.signals = ((.ok (), m'.memory), m'.signals) := by
  unfold run
  constructor
  · intro h
    split at h
    · next memory signals hrun =>
      obtain ⟨-, rfl⟩ := Prod.mk.inj h
      exact hrun
    · cases h
  · intro h
    rw [h]

/-! ## Effects on stores -/

/-- With some memory, a step leads from a store to another one. -/
def Effect (cycle : Nat) (s : Step μ) (st st' : SignalStore) : Prop :=
  ∃ memory memory', s.run cycle ⟨memory, st⟩ = (.ok (), ⟨memory', st'⟩)

section

variable {st st' u u' : SignalStore}

theorem Effect.netOf_eq (h : Effect cycle s st st') : st'.netOf = st.netOf := by
  obtain ⟨memory, memory', hrun⟩ := h
  exact netOf_of_run hrun

/-- A step leaves the nets alone that its block does not write. -/
theorem Effect.cell_eq (h : Effect cycle s st st') (hs : s.Declared nets)
    (hst : st.netOf = nets.netOf) (hn : s.block ∉ nets.writers n) : st'.cell n = st.cell n := by
  obtain ⟨memory, memory', hrun⟩ := h
  have havoids : Program.Avoids st n ((s.behavior s.block cycle memory).trace st) := by
    intro a v r hw hnet
    rw [SignalStore.net?_of_netOf hst] at hnet
    exact hn (hs cycle ⟨memory, st⟩ _ hw n hnet)
  have hframe := Program.run_frame _ _ havoids
  rw [run_eq_ok.1 hrun] at hframe
  exact hframe.1

/-- A step does the same on stores that agree on the nets that its block uses. -/
theorem Effect.congr (h : Effect cycle s st st') (hs : s.Declared nets)
    (hst : st.netOf = nets.netOf) (hagree : st.AgreeOn (nets.Uses s.block) u) :
    ∃ u', Effect cycle s u u' ∧ st'.AgreeOn (nets.Uses s.block) u' := by
  obtain ⟨memory, memory', hrun⟩ := h
  have huses : ∀ ev ∈ (s.behavior s.block cycle memory).trace st, ∀ n,
      st.net? ev.signal = some n → nets.Uses s.block n := by
    intro ev hev n hn
    rw [SignalStore.net?_of_netOf hst] at hn
    have hwithin := hs cycle ⟨memory, st⟩ ev hev
    cases ev with
    | read a found => exact .inl (hwithin n hn)
    | write a v accepted => exact .inr (hwithin n hn)
  obtain ⟨-, hresult, hfinal⟩ := Program.run_agree _ hagree huses
  rw [run_eq_ok.1 hrun] at hresult hfinal
  refine ⟨((s.behavior s.block cycle memory).run u).2, ⟨memory, memory', ?_⟩, hfinal⟩
  exact run_eq_ok.2 (Prod.ext hresult rfl)

/-- Two steps commute if neither writes a net that the other one uses. -/
theorem Effect.swap (h : Effect cycle s st u) (h' : Effect cycle t u st')
    (hs : s.Declared nets) (ht : t.Declared nets) (hst : st.netOf = nets.netOf)
    (hclear : nets.Clear s.block t.block) (hclear' : nets.Clear t.block s.block) :
    ∃ u', Effect cycle t st u' ∧ Effect cycle s u' st' := by
  have hu : u.netOf = nets.netOf := h.netOf_eq.trans hst
  -- the second step does not notice the first one
  have hagree : u.AgreeOn (nets.Uses t.block) st := by
    refine ⟨h.netOf_eq.symm, fun n hn => (h.cell_eq hs hst fun hw => ?_).symm⟩
    exact hclear n hw hn
  obtain ⟨u', ht', hfinal⟩ := h'.congr ht hu hagree
  -- and the first one does not notice the second one
  have hu' : u'.netOf = nets.netOf := ht'.netOf_eq.trans hst
  have hagree' : st.AgreeOn (nets.Uses s.block) u' := by
    refine ⟨ht'.netOf_eq, fun n hn => ht'.cell_eq ht hst fun hw => ?_⟩
    exact hclear' n hw hn
  obtain ⟨v, hs', hfinal'⟩ := h.congr hs hst hagree'
  have hsame : v = st' := by
    refine SignalStore.ext_cell (hs'.netOf_eq.trans (hu'.trans (h'.netOf_eq.trans hu).symm))
      fun n => ?_
    by_cases hn : s.block ∈ nets.writers n
    · have hnt : t.block ∉ nets.writers n := fun hw => hclear n hn (.inr hw)
      rw [hfinal'.cell_eq n (.inr hn), h'.cell_eq ht hu hnt]
    · rw [hs'.cell_eq hs hu' hn]
      by_cases hnt : t.block ∈ nets.writers n
      · exact hfinal.cell_eq n (.inr hnt)
      · rw [ht'.cell_eq ht hst hnt, h'.cell_eq ht hu hnt, h.cell_eq hs hst hn]
  exact ⟨u', ht', hsame ▸ hs'⟩

/-! ## Effects of lists of steps -/

/-- Steps lead from a store to another one, each with some memory. -/
def Completes (cycle : Nat) : List (Step μ) → SignalStore → SignalStore → Prop
  | [], st, st' => st' = st
  | s :: rest, st, st' => ∃ u, Effect cycle s st u ∧ Completes cycle rest u st'

/-- A step that commutes with those before it can come first. -/
theorem completes_toFront {before after : List (Step μ)}
    (hbefore : ∀ t ∈ before, t.Declared nets) (hs : s.Declared nets)
    (hst : st.netOf = nets.netOf)
    (hclear : ∀ t ∈ before, nets.Clear t.block s.block ∧ nets.Clear s.block t.block)
    (h : Completes cycle (before ++ s :: after) st st') :
    Completes cycle (s :: (before ++ after)) st st' := by
  induction before generalizing st with
  | nil => exact h
  | cons t before ih =>
    obtain ⟨u, ht, hrest⟩ := h
    have hu : u.netOf = nets.netOf := ht.netOf_eq.trans hst
    obtain ⟨v, hsv, hrest⟩ := ih (fun t' h' => hbefore t' (List.mem_cons_of_mem _ h')) hu
      (fun t' h' => hclear t' (List.mem_cons_of_mem _ h')) hrest
    obtain ⟨hts, hst'⟩ := hclear t List.mem_cons_self
    obtain ⟨u', hsu', htv⟩ := ht.swap hsv (hbefore t List.mem_cons_self) hs hst hts hst'
    exact ⟨u', hsu', v, htv, hrest⟩

/-- Steps can be permuted if those that may stand in either order commute.  The induction is on the
new order: its first step is moved to the front of the old one. -/
theorem completes_of_perm {R : Step μ → Step μ → Prop} {steps steps' : List (Step μ)}
    (hperm : steps'.Perm steps) (hR : steps.Pairwise R) (hR' : steps'.Pairwise R)
    (hdeclared : ∀ s ∈ steps, s.Declared nets)
    (hclear : ∀ s ∈ steps, ∀ t ∈ steps, R s t → R t s → nets.Clear s.block t.block)
    (hst : st.netOf = nets.netOf) (h : Completes cycle steps st st') :
    Completes cycle steps' st st' := by
  induction steps' generalizing steps st with
  | nil =>
    obtain rfl := hperm.nil_eq
    exact h
  | cons s rest ih =>
    have hs : s ∈ steps := hperm.mem_iff.1 List.mem_cons_self
    obtain ⟨before, after, rfl⟩ := List.append_of_mem hs
    have hrest : rest.Perm (before ++ after) :=
      (hperm.trans List.perm_middle).cons_inv
    obtain ⟨hRs, hRrest⟩ := List.pairwise_cons.1 hR'
    obtain ⟨-, -, hRbefore⟩ := List.pairwise_append.1 hR
    have hmem : ∀ {t}, t ∈ before ++ after → t ∈ before ++ s :: after := by
      intro t ht
      rcases List.mem_append.1 ht with ht | ht
      · exact List.mem_append_left _ ht
      · exact List.mem_append_right _ (List.mem_cons_of_mem _ ht)
    -- what stood before `s` now stands after it
    have hboth : ∀ t ∈ before, R t s ∧ R s t := by
      intro t ht
      exact ⟨hRbefore t ht s List.mem_cons_self,
        hRs t (hrest.mem_iff.2 (List.mem_append_left _ ht))⟩
    have hfront : Completes cycle (s :: (before ++ after)) st st' := by
      refine completes_toFront (fun t ht => ?_) (hdeclared s hs) hst (fun t ht => ?_) h
      · exact hdeclared t (hmem (List.mem_append_left _ ht))
      · obtain ⟨hts, hst⟩ := hboth t ht
        have ht' := hmem (List.mem_append_left _ ht)
        exact ⟨hclear t ht' s hs hts hst, hclear s hs t ht' hst hts⟩
    obtain ⟨u, hsu, hcompletes⟩ := hfront
    refine ⟨u, hsu, ih hrest ?_ hRrest (fun t ht => hdeclared t (hmem ht))
      (fun t ht t' ht' => hclear t (hmem ht) t' (hmem ht')) (hsu.netOf_eq.trans hst) hcompletes⟩
    exact hR.sublist (List.Sublist.append_left (List.sublist_cons_self s after) before)

end

/-! ## Effects and runs -/

theorem completes_of_runAll {steps : List (Step μ)} {m m' : Machine μ SignalStore}
    (h : runAll cycle steps m = (.ok (), m')) : Completes cycle steps m.signals m'.signals := by
  induction steps generalizing m with
  | nil =>
    obtain ⟨-, rfl⟩ := Prod.mk.inj h
    rfl
  | cons s rest ih =>
    obtain ⟨m₁, hs, hrest⟩ := runAll_cons_eq_ok h
    exact ⟨m₁.signals, ⟨m.memory, m₁.memory, hs⟩, ih hrest⟩

/-- Memoryless steps do with any memory what they do with some. -/
theorem runAll_of_completes {steps : List (Step μ)} {st st' : SignalStore}
    (hmemoryless : ∀ s ∈ steps, s.behavior.Memoryless s.block) (h : Completes cycle steps st st')
    (memory : μ) : ∃ memory', runAll cycle steps ⟨memory, st⟩ = (.ok (), ⟨memory', st'⟩) := by
  induction steps generalizing st memory with
  | nil => exact ⟨memory, by rw [show st' = st from h]; rfl⟩
  | cons s rest ih =>
    obtain ⟨u, ⟨memory₁, memory₂, hrun⟩, hrest⟩ := h
    obtain ⟨hresult, hstore⟩ :=
      hmemoryless s List.mem_cons_self cycle memory₁ memory st
    rw [run_eq_ok.1 hrun] at hresult hstore
    have hrun' : s.run cycle ⟨memory, st⟩ =
        (.ok (), ⟨((s.behavior s.block cycle memory).run st).1.2, u⟩) :=
      run_eq_ok.2 (Prod.ext (Prod.ext hresult rfl) hstore)
    obtain ⟨memory', hall⟩ := ih (fun t ht => hmemoryless t (List.mem_cons_of_mem _ ht)) hrest _
    exact ⟨memory', by rw [runAll, hrun']; exact hall⟩

end Step

end Cyclewise
