import SuffixArray.PlainSearch

/-!
# The search in a suffix array with the whole text repeated at its end

This is what a compressed index comes back as: its flag is read as one more index, 0.
The suffix array is no longer sorted, so the bisection may run over the last rank that is
in order, and where it does not the whole text may be counted a second time.
-/

namespace SuffixArray.Search

open Checked SuffixOrder
open InducedSorting (idxBits)
open ReadData (alphOfChar)
open Bisection (Partitioned LeadingOnes)

/-- The one match is at the last rank and the bisection runs over it, because the whole text
behind it is smaller than the pattern and there is a bad number of ranks. -/
def RunsOver (data pattern : List UInt8) (count : Nat) (range : Nat × Nat) : Prop :=
  range.1 + 1 = count ∧ data < pattern ∧ LeadingOnes (count + 2)

instance (data pattern : List UInt8) (count : Nat) (range : Nat × Nat) :
    Decidable (RunsOver data pattern count range) :=
  inferInstanceAs (Decidable (_ ∧ _ ∧ _))

/-- The last rank matches and so does the repeated text behind it. -/
def CountsTwice (data pattern : List UInt8) (count : Nat) (range : Nat × Nat) : Prop :=
  range.2 = count ∧ Occurs data pattern 0

instance (data pattern : List UInt8) (count : Nat) (range : Nat × Nat) :
    Decidable (CountsTwice data pattern count range) :=
  inferInstanceAs (Decidable (_ ∧ _))

/-- What becomes of a correct pair of ranks among `count`. -/
def repeatedRange (data pattern : List UInt8) (count : Nat) (range : Nat × Nat) : Nat × Nat :=
  if range.1 = count ∨ RunsOver data pattern count range then (count + 1, count + 1)
  else if CountsTwice data pattern count range then (range.1, count + 1)
  else range

variable {data pattern : List UInt8} {SA : List Nat} {range : Nat × Nat}

theorem MatchRange.absent (h : MatchRange data SA pattern (SA.length, SA.length))
    (hsa : IsSuffixArray data SA) (p : Nat) : ¬ Occurs data pattern p := by
  intro occurs
  have ranked {q : Nat} (hq : q ≤ data.length) : ¬ Occurs data pattern q := by
    obtain ⟨k, hk, rfl⟩ := hsa.exists_rank hq
    intro occurs
    have inside := (h.exact k _ (List.getElem?_eq_getElem hk)).mpr occurs
    exact absurd inside.2 (Nat.not_lt_of_le inside.1)
  by_cases hp : p ≤ data.length
  · exact ranked hp occurs
  · rw [Occurs, List.drop_eq_nil_of_le (by omega), List.prefix_nil] at occurs
    exact ranked (Nat.zero_le _) (occurs ▸ List.nil_prefix)

/-- The first match is the partition point. -/
theorem MatchRange.partitioned (h : MatchRange data SA pattern range)
    (hsa : IsSuffixArray data SA) (proper : range.1 < range.2 ∧ range.2 ≤ SA.length) :
    Partitioned (compSeq data pattern) SA range.1 where
  le_length := by omega
  less_iff k p hp := by
    have hfirst := List.getElem?_eq_getElem (show range.1 < SA.length by omega)
    have first := (h.exact _ _ hfirst).mp ⟨Nat.le_refl _, proper.1⟩
    rw [compSeq_eq, decide_eq_true_eq]
    constructor
    · intro less
      by_contra hge
      have ordered := hsa.getElem?_le hfirst hp (Nat.le_of_not_lt hge)
      exact absurd less (not_lt.mpr ((le_of_isPrefix first).trans ordered))
    · intro hk
      by_contra hge
      have ordered := hsa.getElem?_le hp hfirst hk.le
      have := (h.exact k p hp).mpr (prefix_of_le_of_le (not_lt.mp hge) ordered first)
      omega

/-- Behind the ranks in order the loop looks at one more. -/
theorem extend_append {y d : Nat} (fits : SA.length + 1 < 2 ^ idxBits) (rest sec : Nat) {b : Nat}
    (hrest : sec + rest = SA.length) (run : extend data pattern SA d rest sec = .ok b) :
    extend data pattern (SA ++ [y]) d (rest + 1) sec = if b = SA.length then (do
      if ← equal pattern data y d 0 then return b + 1 else return b) else .ok b := by
  induction rest generalizing sec with
  | zero =>
      obtain rfl := Except.ok.inj run
      have behind : sec = SA.length := hrest
      have loaded : (SA ++ [y])[sec]? = some y := by rw [behind, List.getElem?_concat_length]
      rw [if_pos behind, extend, load_eq_ok.mpr loaded, ok_bind, inc_of_lt (by omega)]
      rfl
  | succ rest ih =>
      have hlt : sec < SA.length := by omega
      have loaded : (SA ++ [y])[sec]? = some SA[sec] := by
        rw [List.getElem?_append_left hlt, List.getElem?_eq_getElem hlt]
      rw [extend, load_of_lt hlt, ok_bind] at run
      rw [extend, load_eq_ok.mpr loaded, ok_bind]
      cases hequal : equal pattern data SA[sec] d 0 with
      | error fault =>
          rw [hequal] at run
          cases run
      | ok found =>
          rw [hequal, ok_bind] at run
          rw [ok_bind]
          cases found with
          | false =>
              obtain rfl := Except.ok.inj run
              rw [if_neg (Nat.ne_of_lt hlt)]
              rfl
          | true =>
              rw [if_pos rfl, inc_of_lt (by omega), ok_bind] at run ⊢
              exact ih (sec + 1) (by omega) run

/-- The whole text passes `equal` only where the pattern begins it. -/
theorem equal_whole (fits : data.length < 2 ^ idxBits) {first : Nat}
    (found : Occurs data pattern first) :
    equal pattern data 0 pattern.length 0 = .ok (decide (Occurs data pattern 0)) := by
  obtain ⟨result, run, hresult⟩ := equal_eq pattern fits 0 pattern.length 0 (Nat.zero_le _)
    (Nat.zero_add _)
  rw [Nat.zero_add, List.drop_zero, List.drop_zero] at hresult
  rw [run]
  refine congrArg Except.ok (Bool.eq_iff_iff.mpr (hresult.trans ?_))
  rw [decide_eq_true_eq, Occurs, List.drop_zero]
  refine ⟨fun either => either.elim id fun short => ?_, Or.inl⟩
  -- Were the text a proper beginning of the pattern, the pattern would not fit into it.
  have inside := found.length_le
  rw [List.length_drop] at inside
  exact short.eq_of_length_le (by omega) ▸ List.prefix_refl _

/-- Everything behind the bisection, from the first match on. -/
theorem rangeFrom_append (fits : data.length + 2 < 2 ^ idxBits) (hsa : IsSuffixArray data SA)
    (h : MatchRange data SA pattern range) (proper : range.1 < range.2 ∧ range.2 ≤ SA.length) :
    rangeFrom data pattern (SA ++ [0]) range.1 = .ok
      (if CountsTwice data pattern SA.length range then (range.1, SA.length + 1) else range) := by
  have length := hsa.length_eq
  have hlt : range.1 < SA.length := by omega
  have now := List.getElem?_eq_getElem hlt
  have found := (h.exact _ _ now).mp ⟨Nat.le_refl _, proper.1⟩
  obtain ⟨confirmed, run, decides⟩ := confirm_eq pattern (by omega) SA[range.1] pattern.length 0
    (hsa.getElem_le hlt) (Nat.zero_add _)
  obtain rfl := decides.mpr found
  obtain ⟨b, extended, lower, upper, further⟩ := extend_eq (by omega) hsa now found
    (SA.length - (range.1 + 1)) (range.1 + 1) (Nat.lt_succ_self _) (by omega)
  obtain rfl : b = range.2 := by
    have exact_ : MatchRange data SA pattern (range.1, b) := by
      refine ⟨Or.inr ⟨lower, upper⟩, fun k p hp => ?_⟩
      obtain hk | hk := Nat.lt_or_ge range.1 k
      · exact (and_iff_right hk.le).trans (further k p hk hp)
      · have := h.exact k p hp
        simp only
        rw [← this]
        omega
    exact congrArg Prod.snd (exact_.unique h)
  have behind : (SA ++ [0]).length - (range.1 + 1) = SA.length - (range.1 + 1) + 1 := by
    rw [List.length_append, List.length_singleton]
    omega
  have loaded : (SA ++ [0])[range.1]? = some SA[range.1] := by
    rw [List.getElem?_append_left hlt, now]
  rw [rangeFrom, if_neg (by rw [List.length_append]; omega), load_eq_ok.mpr loaded, ok_bind, run,
    ok_bind]
  simp only [ne_eq, not_true, if_false]
  rw [inc_of_lt (by omega), ok_bind, behind,
    extend_append (by omega) _ _ (by omega) extended, equal_whole (by omega) found]
  by_cases hend : range.2 = SA.length
  · by_cases whole : Occurs data pattern 0
    · rw [if_pos hend, if_pos ⟨hend, whole⟩, hend, ok_bind, if_pos (decide_eq_true whole)]
      rfl
    · rw [if_pos hend, if_neg (fun both => whole both.2), ok_bind,
        if_neg (by rwa [decide_eq_true_eq])]
      rfl
  · rw [if_neg hend, if_neg (fun both => hend both.1)]
    rfl

/-- Where there is no match there is none with the whole text repeated. -/
theorem rangeFrom_absent (fits : data.length < 2 ^ idxBits)
    (none : ∀ p, ¬ Occurs data pattern p) (bounded : ∀ p ∈ SA, p ≤ data.length) (idx : Nat)
    (hidx : idx ≤ SA.length) : rangeFrom data pattern SA idx = .ok (SA.length, SA.length) := by
  rw [rangeFrom]
  split
  · rfl
  · have hlt : idx < SA.length := by omega
    obtain ⟨confirmed, run, decides⟩ := confirm_eq pattern fits SA[idx] pattern.length 0
      (bounded _ (List.getElem_mem hlt)) (Nat.zero_add _)
    have hne : confirmed ≠ some pattern.length := fun h => none _ (decides.mp h)
    rw [load_of_lt hlt, ok_bind, run, ok_bind]
    cases confirmed with
    | none => rfl
    | some d => exact if_pos (fun same => hne (congrArg some same))

/-- The plain search with the whole text repeated. -/
theorem findAllInfix_append (fits : data.length + 2 < 2 ^ idxBits) (hsa : IsSuffixArray data SA)
    {infixIn : List Int8} (h : MatchRange data SA (infixIn.map alphOfChar) range) (fuel : Nat)
    (past : Past) : findAllInfix fuel past infixIn data (SA ++ [0]) [] [] =
      .ok (repeatedRange data (infixIn.map alphOfChar) SA.length range) := by
  have count : (SA ++ [0]).length = SA.length + 1 := List.length_append
  rw [findAllInfix, if_neg (by decide)]
  obtain rfl | proper := h.shape
  · have absent := h.absent hsa
    obtain ⟨k, hk⟩ := exists_partition hsa (infixIn.map alphOfChar)
    have bound := hk.le_length
    have bounded : ∀ p ∈ SA ++ [0], p ≤ data.length := by
      intro p hp
      obtain hp | hp := List.mem_append.mp hp
      · exact hsa.mem_iff.mp hp
      · exact List.mem_singleton.mp hp ▸ Nat.zero_le _
    rw [Bisection.lowerBound_append hk, ok_bind, rangeFrom_absent (by omega) absent bounded _
      (by rw [count]; split <;> omega), repeatedRange, if_pos (Or.inl rfl), count]
  · have partition_ := h.partitioned hsa proper
    have runs : (compSeq data (infixIn.map alphOfChar) 0 = true ∧ (range.1 = SA.length ∨
        range.1 + 1 = SA.length ∧ LeadingOnes (SA.length + 2))) ↔
        RunsOver data (infixIn.map alphOfChar) SA.length range := by
      rw [compSeq_eq, decide_eq_true_eq, List.drop_zero, or_iff_right (by omega), RunsOver,
        and_left_comm]
    have here : range.1 ≠ SA.length := by omega
    rw [Bisection.lowerBound_append partition_, ok_bind, repeatedRange]
    by_cases beyond : RunsOver data (infixIn.map alphOfChar) SA.length range
    · rw [if_pos (runs.mpr beyond), if_pos (Or.inr beyond), rangeFrom, if_pos count.symm, count]
      rfl
    · rw [if_neg (fun both => beyond (runs.mp both)),
        if_neg (fun either => either.elim here beyond), rangeFrom_append fits hsa h proper]

end SuffixArray.Search
