import SuffixArray.PlainSearch

/-!
# The search in an array of any positions

An index that is read may be of another text, out of order or damaged. As long as its
entries are positions of the text that comes with it, the plain search still ends inside
the array. It may miss occurrences, but it returns no position at which text and pattern
differ: the first candidate is compared with the whole pattern, the others up to the end of
the text at least.
-/

namespace SuffixArray.Search

open Checked SuffixOrder
open InducedSorting (idxBits)
open ReadData (alphOfChar)

/-- Text and pattern do not differ before one of them ends. -/
def Agrees (data pattern : List UInt8) (p : Nat) : Prop :=
  pattern <+: data.drop p ∨ data.drop p <+: pattern

instance (data pattern : List UInt8) : DecidablePred (Agrees data pattern) := fun p =>
  inferInstanceAs (Decidable (pattern <+: data.drop p ∨ data.drop p <+: pattern))

/-- What a search can promise without an order of the suffixes: a run of ranks that agree,
as long as possible from the first on, which is a match. -/
structure AgreeingRange (data : List UInt8) (SA : List Nat) (pattern : List UInt8)
    (range : Nat × Nat) : Prop where
  shape : range = (SA.length, SA.length) ∨ range.1 < range.2 ∧ range.2 ≤ SA.length
  first : ∀ p, SA[range.1]? = some p → Occurs data pattern p
  agrees : ∀ (k : Nat) p, range.1 ≤ k → k < range.2 → SA[k]? = some p → Agrees data pattern p
  stops : ∀ p, SA[range.2]? = some p → ¬ Agrees data pattern p

variable {data pattern : List UInt8} {SA : List Nat}

theorem agreeingRange_absent : AgreeingRange data SA pattern (SA.length, SA.length) where
  shape := Or.inl rfl
  first _ hp := absurd (List.getElem?_eq_some_iff.mp hp).1 (Nat.lt_irrefl _)
  agrees _ _ lower upper _ := absurd upper (Nat.not_lt_of_le lower)
  stops _ hp := absurd (List.getElem?_eq_some_iff.mp hp).1 (Nat.lt_irrefl _)

/-- `sec` stops at the first rank that does not agree. -/
theorem extend_any (fits : data.length < 2 ^ idxBits) (few : SA.length < 2 ^ idxBits)
    (inside : ∀ p ∈ SA, p ≤ data.length) (rest sec : Nat) (hrest : sec + rest = SA.length) :
    ∃ b, extend data pattern SA pattern.length rest sec = .ok b ∧ sec ≤ b ∧ b ≤ SA.length ∧
      (∀ (k : Nat) p, sec ≤ k → k < b → SA[k]? = some p → Agrees data pattern p) ∧
      ∀ p, SA[b]? = some p → ¬ Agrees data pattern p := by
  induction rest generalizing sec with
  | zero =>
      obtain rfl : sec = SA.length := hrest
      refine ⟨_, rfl, Nat.le_refl _, Nat.le_refl _, fun k p lower upper _ => ?_, fun p hp => ?_⟩
      · exact absurd upper (Nat.not_lt_of_le lower)
      · exact absurd (List.getElem?_eq_some_iff.mp hp).1 (Nat.lt_irrefl _)
  | succ rest ih =>
      have hlt : sec < SA.length := by omega
      have now := List.getElem?_eq_getElem hlt
      obtain ⟨result, run, decides⟩ := equal_eq pattern fits SA[sec] pattern.length 0
        (inside _ (List.getElem_mem hlt)) (Nat.zero_add _)
      rw [Nat.add_zero, List.drop_zero] at decides
      rw [extend, load_of_lt hlt, ok_bind, run, ok_bind]
      cases result with
      | true =>
          have here : Agrees data pattern SA[sec] := decides.mp rfl
          rw [if_pos rfl, inc_of_lt (by omega), ok_bind]
          obtain ⟨b, hrun, lower, upper, agrees, stops⟩ := ih (sec + 1) (by omega)
          refine ⟨b, hrun, by omega, upper, fun k p hk hb hp => ?_, stops⟩
          obtain rfl | later := Nat.eq_or_lt_of_le hk
          · obtain rfl := Option.some.inj (now.symm.trans hp)
            exact here
          · exact agrees k p later hb hp
      | false =>
          refine ⟨sec, rfl, Nat.le_refl _, hlt.le, fun k p hk hb _ => ?_, fun p hp => ?_⟩
          · exact absurd hb (Nat.not_lt_of_le hk)
          · obtain rfl := Option.some.inj (now.symm.trans hp)
            exact fun agrees => Bool.false_ne_true (decides.mpr agrees)

/-- Everything behind the bisection, wherever it has ended. -/
theorem rangeFrom_any (fits : data.length < 2 ^ idxBits) (few : SA.length < 2 ^ idxBits)
    (inside : ∀ p ∈ SA, p ≤ data.length) {idx : Nat} (bound : idx ≤ SA.length) :
    ∃ range, rangeFrom data pattern SA idx = .ok range ∧
      AgreeingRange data SA pattern range := by
  obtain hlt | rfl := Nat.lt_or_eq_of_le bound
  · have now := List.getElem?_eq_getElem hlt
    obtain ⟨confirmed, run, decides⟩ := confirm_eq pattern fits SA[idx] pattern.length 0
      (inside _ (List.getElem_mem hlt)) (Nat.zero_add _)
    rw [Nat.add_zero, List.drop_zero] at decides
    rw [rangeFrom, if_neg hlt.ne, load_of_lt hlt, ok_bind, run, ok_bind]
    cases confirmed with
    | none => exact ⟨_, rfl, agreeingRange_absent⟩
    | some d =>
        by_cases whole : d = pattern.length
        · subst whole
          have found : Occurs data pattern SA[idx] := decides.mp rfl
          obtain ⟨b, extended, lower, upper, agrees, stops⟩ := extend_any fits few inside
            (SA.length - (idx + 1)) (idx + 1) (by omega)
          refine ⟨(idx, b), ?_, Or.inr ⟨lower, upper⟩, fun p hp => ?_, fun k p hk hb hp => ?_,
            stops⟩
          · simp only [ne_eq, not_true, if_false, inc_of_lt (show idx + 1 < 2 ^ idxBits by omega),
              ok_bind, extended, pure_eq_ok]
          · obtain rfl := Option.some.inj (now.symm.trans hp)
            exact found
          · obtain rfl | later := Nat.eq_or_lt_of_le hk
            · obtain rfl := Option.some.inj (now.symm.trans hp)
              exact Or.inl found
            · exact agrees k p later hb hp
        · exact ⟨_, if_pos whole, agreeingRange_absent⟩
  · rw [rangeFrom, if_pos rfl]
    exact ⟨_, rfl, agreeingRange_absent⟩

/-- The plain search of any array of positions. -/
theorem findAllInfix_any (fits : data.length < 2 ^ idxBits) (few : SA.length < 2 ^ idxBits)
    (inside : ∀ p ∈ SA, p ≤ data.length) (infixIn : List Int8) (fuel : Nat) (past : Past)
    (lcpR : List (List Nat)) : ∃ range,
    findAllInfix fuel past infixIn data SA [] lcpR = .ok range ∧
      AgreeingRange data SA (infixIn.map alphOfChar) range := by
  obtain ⟨k, bisected, bound⟩ :=
    Bisection.lowerBound_inside (compSeq data (infixIn.map alphOfChar)) SA
  obtain ⟨range, run, h⟩ := rangeFrom_any fits few inside bound
  refine ⟨range, ?_, h⟩
  rw [findAllInfix, if_neg (by decide), bisected, ok_bind, run]

end SuffixArray.Search
