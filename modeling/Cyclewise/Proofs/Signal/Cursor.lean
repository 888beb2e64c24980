import Cyclewise.Signal.Cursor
import Cyclewise.Proofs.BitSet
import Cyclewise.Proofs.Numbers

/-!
# Sets of signals are finite sets

The set bits of a word are its lowest one and those of the word without it (`wordBits_eq_cons`).  So
a cursor gives the first of the members that are ahead of it, and has the others ahead afterwards
(`Cursor.next_of_ahead`); a walk from the start gives `toList` and ends (`yields_start`).  `size`,
`isEmpty` and `==` speak about `toList`, whatever zero words a set ends with, and together this is
what a set built by any operations says about the signals that they put in (`built_finite`).
-/

namespace Cyclewise

namespace BitSet

/-! ## The lowest bit -/

theorem wordHas_lowBit {w : UInt64} (hw : w ≠ 0) : wordHas w (lowBit w) = true :=
  BitVec.getLsbD_true_ctz_of_ne_zero fun h => hw (UInt64.toBitVec_inj.1 h)

theorem wordHas_of_lt_lowBit {w : UInt64} {i : Nat} (h : i < lowBit w) : wordHas w i = false :=
  BitVec.getLsbD_false_of_lt_ctz h

/-- Taking one away from a number clears its lowest set bit and keeps those above it. -/
theorem testBit_sub_one {n k : Nat} (hk : n.testBit k = true)
    (hbelow : ∀ j < k, n.testBit j = false) {i : Nat} (hi : k ≤ i) :
    (n - 1).testBit i = (n.testBit i && decide (i ≠ k)) := by
  have hmod : n % 2 ^ k = 0 := by
    refine Nat.eq_of_testBit_eq fun j => ?_
    rw [Nat.testBit_mod_two_pow, Nat.zero_testBit]
    by_cases hj : j < k
    · rw [hbelow j hj, Bool.and_false]
    · rw [decide_eq_false hj, Bool.false_and]
  have hodd : n / 2 ^ k % 2 = 1 := by
    rwa [Nat.testBit_eq_decide_div_mod_eq, decide_eq_true_eq] at hk
  obtain ⟨m, hm⟩ : ∃ m, n / 2 ^ k = 2 * m + 1 := ⟨n / 2 ^ k / 2, by omega⟩
  have hpos : 0 < 2 ^ k := Nat.two_pow_pos k
  have hn : n = 2 ^ k * (2 * m + 1) := by
    rw [← hm]
    exact (Nat.mul_div_cancel' (Nat.dvd_of_mod_eq_zero hmod)).symm
  have hpred : n - 1 = 2 ^ k * (2 * m) + (2 ^ k - 1) := by
    rw [hn, Nat.mul_add]
    omega
  rw [hpred, Nat.testBit_two_pow_mul_add _ (by omega), if_neg (by omega), hn,
    Nat.testBit_two_pow_mul, decide_eq_true hi, Bool.true_and]
  obtain rfl | ⟨j, rfl⟩ : i = k ∨ ∃ j, i = k + (j + 1) := by
    rcases Nat.eq_or_lt_of_le hi with h | h
    · exact .inl h.symm
    · exact .inr ⟨i - k - 1, by omega⟩
  · simp
  · rw [Nat.add_sub_cancel_left, Nat.testBit_add_one, Nat.testBit_add_one]
    have hhalf : (2 * m + 1) / 2 = 2 * m / 2 := by omega
    have hne : k + (j + 1) ≠ k := by omega
    rw [hhalf, decide_eq_true hne, Bool.and_true]

theorem wordHas_and_sub_one {w : UInt64} (hw : w ≠ 0) (i : Nat) :
    wordHas (w &&& (w - 1)) i = true ↔ i ≠ lowBit w ∧ wordHas w i = true := by
  have hone : (1 : UInt64) ≤ w := by
    rw [UInt64.le_iff_toNat_le, UInt64.toNat_one]
    have : w.toNat ≠ 0 := fun h => hw (UInt64.toNat_inj.1 h)
    omega
  have hand : wordHas (w &&& (w - 1)) i = (wordHas w i && (w.toNat - 1).testBit i) := by
    rw [wordHas, UInt64.toNat_and, UInt64.toNat_sub_of_le _ _ hone, UInt64.toNat_one,
      Nat.testBit_and]
    rfl
  rw [hand]
  rcases Nat.lt_or_ge i (lowBit w) with hi | hi
  · simp [wordHas_of_lt_lowBit hi]
  · rw [testBit_sub_one (wordHas_lowBit hw) (fun j hj => wordHas_of_lt_lowBit hj) hi]
    show (wordHas w i && (wordHas w i && _)) = true ↔ _
    simp [and_comm]

theorem wordBits_zero : wordBits 0 = [] :=
  List.eq_nil_iff_forall_not_mem.2 fun i h => by simp [mem_wordBits, wordHas_zero] at h

theorem pairwise_wordBits (w : UInt64) : (wordBits w).Pairwise (· < ·) :=
  List.pairwise_lt_range.filter _

/-- The set bits of a word are the lowest one and those that clearing it leaves. -/
theorem wordBits_eq_cons {w : UInt64} (hw : w ≠ 0) :
    wordBits w = lowBit w :: wordBits (w &&& (w - 1)) := by
  refine @eq_of_ascending _ id _ _ (pairwise_wordBits w) ?_ fun i => ?_
  · refine List.pairwise_cons.2 ⟨fun i hi => ?_, pairwise_wordBits _⟩
    obtain ⟨hne, hi⟩ := (wordHas_and_sub_one hw i).1 (mem_wordBits.1 hi)
    refine Nat.lt_of_le_of_ne (Nat.le_of_not_lt fun hlt => ?_) (Ne.symm hne)
    exact Bool.false_ne_true ((wordHas_of_lt_lowBit hlt).symm.trans hi)
  · rw [List.mem_cons, mem_wordBits, mem_wordBits, wordHas_and_sub_one hw]
    by_cases hi : i = lowBit w
    · rw [hi]
      exact iff_of_true (wordHas_lowBit hw) (.inl rfl)
    · simp [hi]

/-! ## Number of members -/

theorem wordSize_eq_length (w : UInt64) : wordSize w = (wordBits w).length := by
  unfold wordSize
  split
  · next h => rw [h, wordBits_zero, List.length_nil]
  · exact List.countP_eq_length_filter

/-- A zero word adds nothing to a listing. -/
theorem numbersFrom_cons (base : Nat) (w : UInt64) (ws : List UInt64) :
    numbersFrom base (w :: ws) = (wordBits w).map (base + ·) ++ numbersFrom (base + 64) ws := by
  rw [numbersFrom]
  split
  · next h => rw [h, wordBits_zero, List.map_nil, List.nil_append]
  · rfl

theorem size_eq_length (s : BitSet) : s.size = s.toList.length := by
  have hwords : ∀ (ws : List UInt64) (n base : Nat),
      ws.foldl (fun n w => n + wordSize w) n = n + (numbersFrom base ws).length := by
    intro ws
    induction ws with
    | nil => exact fun _ _ => rfl
    | cons w ws ih =>
      intro n base
      rw [List.foldl_cons, ih _ (base + 64), numbersFrom_cons, List.length_append, List.length_map,
        wordSize_eq_length, Nat.add_assoc]
  exact (hwords s.words 0 0).trans (Nat.zero_add _)

theorem isEmpty_iff {s : BitSet} : s.isEmpty = true ↔ s.toList = [] := by
  have hwords : ∀ (ws : List UInt64) (base : Nat),
      ws.all (· == 0) = true ↔ numbersFrom base ws = [] := by
    intro ws
    induction ws with
    | nil => exact fun _ => iff_of_true rfl rfl
    | cons w ws ih =>
      intro base
      rw [List.all_cons, Bool.and_eq_true, ih (base + 64), numbersFrom_cons, List.append_eq_nil_iff,
        List.map_eq_nil_iff, beq_iff_eq]
      refine and_congr_left fun _ => ⟨fun h => by rw [h, wordBits_zero], fun h => ?_⟩
      by_contra hw
      rw [wordBits_eq_cons hw] at h
      cases h
  exact hwords s.words 0

/-! ## Equality and joining -/

theorem wordHas_ext {w v : UInt64} (h : ∀ i, wordHas w i = wordHas v i) : w = v :=
  UInt64.toNat_inj.1 (Nat.eq_of_testBit_eq h)

theorem all_zero_iff {ws : List UInt64} : ws.all (· == 0) = true ↔ ∀ i, ws.getD i 0 = 0 := by
  rw [List.all_eq_true]
  constructor
  · intro h i
    rw [List.getD_eq_getElem?_getD]
    cases hi : ws[i]? with
    | none => rfl
    | some w => exact beq_iff_eq.1 (h w (List.mem_of_getElem? hi))
  · intro h w hw
    obtain ⟨i, hi⟩ := List.mem_iff_getElem?.1 hw
    have := h i
    rw [List.getD_eq_getElem?_getD, hi] at this
    exact beq_iff_eq.2 this

/-- Word lists are the same when they read the same at every place. -/
theorem sameWords_iff {ws vs : List UInt64} :
    sameWords ws vs = true ↔ ∀ i, ws.getD i 0 = vs.getD i 0 := by
  induction ws, vs using sameWords.induct with
  | case1 vs =>
    rw [sameWords, all_zero_iff]
    exact forall_congr' fun i => eq_comm
  | case2 ws hws =>
    rw [sameWords, all_zero_iff]
    · rfl
    · exact hws
  | case3 w ws v vs ih =>
    rw [sameWords, Bool.and_eq_true, beq_iff_eq, ih]
    constructor
    · rintro ⟨hw, hws⟩ (_ | i)
      · exact hw
      · exact hws i
    · exact fun h => ⟨h 0, fun i => h (i + 1)⟩

theorem beq_iff {s t : BitSet} : (s == t) = true ↔ ∀ i, i ∈ s ↔ i ∈ t := by
  show sameWords s.words t.words = true ↔ _
  rw [sameWords_iff]
  constructor
  · intro h i
    rw [mem_iff, mem_iff, h]
  · intro h n
    refine wordHas_ext fun i => ?_
    rcases Nat.lt_or_ge i 64 with hi | hi
    · have hdiv : (n * 64 + i) / 64 = n := by omega
      have hmod : (n * 64 + i) % 64 = i := by omega
      have := h (n * 64 + i)
      rw [mem_iff, mem_iff, hdiv, hmod] at this
      exact Bool.eq_iff_iff.2 this
    · have hout : ∀ w, wordHas w i = false := fun w => by
        by_contra hw
        have := wordHas_lt (Bool.not_eq_false _ ▸ hw)
        omega
      rw [hout, hout]

theorem joinWords_eq (ws vs : List UInt64) (h : vs.length ≤ ws.length) :
    joinWords ws vs = List.zipWith (· ||| ·) ws (padWords ws.length vs) := by
  induction ws, vs using joinWords.induct with
  | case1 w ws v vs ih =>
    rw [joinWords, ih (Nat.le_of_succ_le_succ h)]
    simp [padWords]
  | case2 ws =>
    have hzero : ∀ ws : List UInt64, List.zipWith (· ||| ·) ws (List.replicate ws.length 0) = ws := by
      intro ws
      induction ws with
      | nil => rfl
      | cons w ws ih => simp [List.replicate_succ, ih]
    simp [joinWords, padWords, hzero]
  | case3 v vs => simp at h

/-- Growing and joining in place gives the words of the union. -/
theorem unionWith_eq (s t : BitSet) : s.unionWith t = s ∪ t := by
  have hlength := length_padWords t.words.length s.words
  show (⟨joinWords (padWords t.words.length s.words) t.words⟩ : BitSet) =
    ⟨orWords s.words t.words⟩
  rw [joinWords_eq _ _ (by omega)]
  congr 2
  simp only [padWords, List.length_append, List.length_replicate]
  congr 2
  omega

end BitSet

namespace SignalSet

theorem unionWith_eq (s t : SignalSet) : s.unionWith t = s ∪ t :=
  congrArg SignalSet.mk (BitSet.unionWith_eq s.bits t.bits)

theorem size_eq_length (s : SignalSet) : s.size = s.toList.length := by
  rw [toList, List.length_map]
  exact s.bits.size_eq_length

theorem isEmpty_iff {s : SignalSet} : s.isEmpty = true ↔ s.toList = [] := by
  rw [toList, List.map_eq_nil_iff]
  exact BitSet.isEmpty_iff

theorem beq_iff {s t : SignalSet} : (s == t) = true ↔ ∀ a, a ∈ s ↔ a ∈ t :=
  BitSet.beq_iff.trans ⟨fun h a => h a.index, fun h i => h ⟨i⟩⟩

/-! ## Walking -/

/-- What is ahead of a cursor: the bits left in its word, then the words after it. -/
def Cursor.ahead (c : Cursor) : List Nat :=
  (BitSet.wordBits c.left).map (c.index * 64 + ·) ++
    BitSet.numbersFrom ((c.index + 1) * 64) (c.words.drop (c.index + 1))

theorem Cursor.ahead_start (s : SignalSet) : s.start.ahead = s.bits.toList := by
  obtain ⟨⟨ws⟩⟩ := s
  cases ws with
  | nil => rfl
  | cons w ws =>
    unfold BitSet.toList
    rw [BitSet.numbersFrom_cons]
    rfl

/-- One call: the end is reported when nothing is ahead, else the first of what is ahead is given
and the rest stays ahead. -/
theorem Cursor.next_of_ahead (c : Cursor) :
    (c.next.1 = none ∧ c.ahead = []) ∨
    ∃ i, c.next.1 = some ⟨i % UInt32.size⟩ ∧ c.ahead = i :: c.next.2.ahead := by
  induction c using Cursor.next.induct with
  | case1 c hleft hindex ih =>
    -- no bit is left and another word follows: the same numbers are ahead of its start
    have hahead : c.ahead = Cursor.ahead
        { c with index := c.index + 1, left := c.words[c.index + 1] } := by
      unfold Cursor.ahead
      rw [hleft, BitSet.wordBits_zero, List.drop_eq_getElem_cons hindex, BitSet.numbersFrom_cons,
        List.map_nil, List.nil_append, Nat.succ_mul (c.index + 1)]
    rw [Cursor.next, if_pos hleft, dif_pos hindex, hahead]
    exact ih
  | case2 c hleft hindex =>
    refine .inl ⟨?_, ?_⟩
    · rw [Cursor.next, if_pos hleft, dif_neg hindex]
    · unfold Cursor.ahead
      rw [hleft, BitSet.wordBits_zero, List.drop_of_length_le (Nat.le_of_not_lt hindex)]
      rfl
  | case3 c hleft =>
    refine .inr ⟨c.index * 64 + BitSet.lowBit c.left, ?_, ?_⟩
    · rw [Cursor.next, if_neg hleft]
    · rw [Cursor.next, if_neg hleft]
      unfold Cursor.ahead
      rw [BitSet.wordBits_eq_cons hleft, List.map_cons, List.cons_append]

/-- Called again and again, a cursor gives the members of a list and then reports the end. -/
inductive Cursor.Yields : Cursor → List SignalId → Prop where
  | done {c} (h : c.next.1 = none) : Yields c []
  | more {c a as} (h : c.next.1 = some a) (rest : Yields c.next.2 as) : Yields c (a :: as)

/-- A cursor gives what is ahead of it, cut to 32 bits. -/
theorem Cursor.yields_ahead (c : Cursor) :
    c.Yields (c.ahead.map fun i => ⟨i % UInt32.size⟩) := by
  generalize hahead : c.ahead = is
  induction is generalizing c with
  | nil =>
    rcases c.next_of_ahead with ⟨hend, -⟩ | ⟨i, -, hi⟩
    · exact .done hend
    · rw [hahead] at hi
      cases hi
  | cons j is ih =>
    rcases c.next_of_ahead with ⟨-, hnil⟩ | ⟨i, hnext, hi⟩
    · rw [hahead] at hnil
      cases hnil
    · rw [hahead] at hi
      obtain ⟨rfl, his⟩ := List.cons.inj hi
      exact .more hnext (ih _ his.symm)

/-- A walk gives the members in the order of `toList`, as long as their numbers have 32 bits. -/
theorem yields_start {s : SignalSet} (hs : ∀ a ∈ s, a.index < UInt32.size) :
    s.start.Yields s.toList := by
  have h := s.start.yields_ahead
  rw [Cursor.ahead_start] at h
  have hcut : s.bits.toList.map (fun i => (⟨i % UInt32.size⟩ : SignalId)) = s.toList := by
    refine List.map_congr_left fun i hi => ?_
    rw [Nat.mod_eq_of_lt (hs ⟨i⟩ (BitSet.mem_toList.1 hi))]
  rwa [hcut] at h

/-! ## Sets that operations build -/

theorem Building.mem_set {b : Building} {a : SignalId} : a ∈ b.set ↔ a ∈ b.ids := by
  induction b with
  | empty => simp [set, ids]
  | insert b c ih => rw [set, ids, mem_insert, List.mem_cons, ih]
  | extend b as ih => rw [set, ids, mem_insertAll, List.mem_append, ih]
  | union b b' ih ih' => rw [set, ids, mem_union, List.mem_append, ih, ih']
  | unionWith b b' ih ih' => rw [set, ids, unionWith_eq, mem_union, List.mem_append, ih, ih']

/-- **Finite sets.**  Take a set built by any operations, from identifiers of 32 bits.  A walk
through it ends, and gives the identifiers put in, each once and by ascending number.  These are the
members, they are counted by `size` and looked for by `isEmpty`, and they alone tell whether the
set equals another one, whatever its words are. -/
theorem built_finite (b : Building) (hb : ∀ a ∈ b.ids, a.index < UInt32.size) :
    ∃ as, b.set.start.Yields as ∧ as.Pairwise (·.index < ·.index) ∧ (∀ a, a ∈ as ↔ a ∈ b.ids) ∧
      (∀ a, b.set.contains a = true ↔ a ∈ as) ∧ b.set.size = as.length ∧
      (b.set.isEmpty = true ↔ as = []) ∧
      (∀ t : SignalSet, (b.set == t) = true ↔ ∀ a, a ∈ as ↔ t.contains a = true) ∧
      ∀ b' : Building, (b.set == b'.set) = true ↔ ∀ a, a ∈ b.ids ↔ a ∈ b'.ids := by
  have hmem : ∀ a, a ∈ b.set ↔ a ∈ b.ids := fun a => Building.mem_set
  refine ⟨b.set.toList, yields_start fun a ha => hb a ((hmem a).1 ha), b.set.pairwise_toList,
    fun a => mem_toList.trans (hmem a), fun a => mem_toList.symm, b.set.size_eq_length, isEmpty_iff,
    fun t => ?_, fun b' => ?_⟩
  · rw [beq_iff]
    exact forall_congr' fun a => iff_congr mem_toList.symm Iff.rfl
  · rw [beq_iff]
    exact forall_congr' fun a => iff_congr (hmem a) Building.mem_set

/-- Signals of three words, the second one zero. -/
def Building.sparse : Building :=
  .unionWith (.insert (.insert .empty ⟨130⟩) ⟨3⟩) (.union .empty (.extend .empty [⟨130⟩, ⟨0⟩]))

/-- The walk passes over the zero word, and the set equals one with a zero word at its end. -/
theorem sparse_finite : (∀ a ∈ Building.sparse.ids, a.index < UInt32.size) ∧
    Building.sparse.set.start.Yields [⟨0⟩, ⟨3⟩, ⟨130⟩] ∧ Building.sparse.set.size = 3 ∧
    (Building.sparse.set == ⟨⟨[9, 0, 4, 0]⟩⟩) = true ∧
    (⟨⟨[9, 0, 4, 0]⟩⟩ : SignalSet).contains ⟨130⟩ = true := by
  have hids : ∀ a ∈ Building.sparse.ids, a.index < UInt32.size := by decide
  have hsame : (Building.sparse.set == ⟨⟨[9, 0, 4, 0]⟩⟩) = true := by decide
  obtain ⟨as, hyields, hascend, hmem, -, hsize, -, hequal, -⟩ := built_finite Building.sparse hids
  have has : as = [⟨0⟩, ⟨3⟩, ⟨130⟩] := by
    refine eq_of_ascending hascend (by decide) fun a => (hmem a).trans ?_
    simp only [Building.sparse, Building.ids, List.mem_append, List.mem_cons, List.not_mem_nil]
    tauto
  rw [has] at hyields hsize hequal
  exact ⟨hids, hyields, hsize, hsame, (hequal _).1 hsame ⟨130⟩ |>.1 (by decide)⟩

end SignalSet

end Cyclewise
