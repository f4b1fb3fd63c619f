import SuffixArray.PrefixOrder
import SuffixArray.Search

/-!
# The search without tables is exact

The partition point of `CompSeq` is the first rank whose suffix is not smaller than
the pattern. If any suffix begins with the pattern this one does, and the others
follow it. `equal` also accepts a suffix that is a proper beginning of the pattern,
but such a suffix is smaller than the pattern and stands further in front.
-/

namespace SuffixArray.Search

open Checked SuffixOrder
open InducedSorting (idxBits)
open ReadData (alphOfChar)

/-- A position at which the pattern occurs. -/
def Occurs (data pattern : List UInt8) (p : Nat) : Prop := pattern <+: data.drop p

instance (data pattern : List UInt8) : DecidablePred (Occurs data pattern) := fun p =>
  inferInstanceAs (Decidable (pattern <+: data.drop p))

/-- What a search is to return: the ranks of the occurrences, or the number of
ranks twice if there are none. -/
structure MatchRange (data : List UInt8) (SA : List Nat) (pattern : List UInt8)
    (range : Nat × Nat) : Prop where
  shape : range = (SA.length, SA.length) ∨ range.1 < range.2 ∧ range.2 ≤ SA.length
  exact : ∀ (k : Nat) p, SA[k]? = some p → (range.1 ≤ k ∧ k < range.2 ↔ Occurs data pattern p)

variable {data pattern : List UInt8} {SA : List Nat}

theorem matchRange_absent (none : ∀ (k : Nat) p, SA[k]? = some p → ¬ Occurs data pattern p) :
    MatchRange data SA pattern (SA.length, SA.length) where
  shape := Or.inl rfl
  exact k p hk := by
    refine iff_of_false ?_ (none k p hk)
    omega

namespace MatchRange

variable {range other : Nat × Nat}

theorem fst_le (h : MatchRange data SA pattern range) (h' : MatchRange data SA pattern other)
    (proper : range.1 < range.2 ∧ range.2 ≤ SA.length) : other.1 ≤ range.1 := by
  have hk := List.getElem?_eq_getElem (show range.1 < SA.length by omega)
  exact ((h'.exact _ _ hk).mpr ((h.exact _ _ hk).mp ⟨Nat.le_refl _, proper.1⟩)).1

theorem snd_le (h : MatchRange data SA pattern range) (h' : MatchRange data SA pattern other)
    (proper : range.1 < range.2 ∧ range.2 ≤ SA.length) : range.2 ≤ other.2 := by
  have hk := List.getElem?_eq_getElem (show range.2 - 1 < SA.length by omega)
  have := ((h'.exact _ _ hk).mpr ((h.exact _ _ hk).mp (by omega))).2
  omega

/-- There is one correct answer. -/
theorem unique (h : MatchRange data SA pattern range) (h' : MatchRange data SA pattern other) :
    range = other := by
  obtain rfl | proper := h.shape
  · obtain rfl | proper' := h'.shape
    · rfl
    · have := h'.fst_le h proper'
      simp only at this
      omega
  · obtain rfl | proper' := h'.shape
    · have := h.fst_le h' proper
      simp only at this
      omega
    · refine Prod.ext ?_ ?_
      · exact Nat.le_antisymm (h'.fst_le h proper') (h.fst_le h' proper)
      · exact Nat.le_antisymm (h.snd_le h' proper) (h'.snd_le h proper')

end MatchRange

/-- The pattern element passes through `char` unchanged. -/
theorem compSeq_eq (data pattern : List UInt8) (i : Nat) :
    compSeq data pattern i = decide (data.drop i < pattern) := by
  rw [← lexicographicalCompare_eq]
  rfl

theorem exists_partition (hsa : IsSuffixArray data SA) (pattern : List UInt8) :
    ∃ k, Bisection.Partitioned (compSeq data pattern) SA k := by
  refine Bisection.exists_partitioned (fun i j x y hij hx hy hless => ?_)
  rw [compSeq_eq, decide_eq_true_eq] at hless ⊢
  exact lt_of_le_of_lt (hsa.getElem?_le hx hy hij) hless

theorem drop_cons_prefix_drop_iff {i j : Nat} (hi : i < pattern.length) (hj : j < data.length) :
    pattern.drop i <+: data.drop j ↔
      pattern[i] = data[j] ∧ pattern.drop (i + 1) <+: data.drop (j + 1) := by
  rw [List.drop_eq_getElem_cons hi, List.drop_eq_getElem_cons hj, List.cons_prefix_cons]

/-- The confirmation counts up to the length of the pattern exactly at a match. -/
theorem confirm_eq (pattern : List UInt8) (fits : data.length < 2 ^ idxBits) (start rest i : Nat)
    (hstart : start + i ≤ data.length) (hrest : i + rest = pattern.length) :
    ∃ result, confirm data pattern start rest i i = .ok result ∧
      (result = some pattern.length ↔ pattern.drop i <+: data.drop (start + i)) := by
  induction rest generalizing i with
  | zero =>
      obtain rfl : i = pattern.length := hrest
      refine ⟨_, rfl, iff_of_true rfl ?_⟩
      rw [List.drop_length]
      exact List.nil_prefix
  | succ rest ih =>
      have hi : i < pattern.length := by omega
      rw [confirm, add_of_lt (by omega), ok_bind]
      by_cases hlt : start + i < data.length
      · rw [if_pos hlt, load_of_lt hlt, ok_bind, load_of_lt hi, ok_bind,
          drop_cons_prefix_drop_iff hi hlt]
        by_cases same : data[start + i] = pattern[i]
        · rw [if_pos same, inc_of_lt (by omega), ok_bind, ok_bind]
          obtain ⟨result, run, h⟩ := ih (i + 1) (by omega) (by omega)
          exact ⟨result, run, h.trans (and_iff_right same.symm).symm⟩
        · rw [if_neg same]
          exact ⟨none, rfl, iff_of_false (fun h => nomatch h) (fun h => same h.1.symm)⟩
      · rw [if_neg hlt]
        refine ⟨some i, rfl, iff_of_false ?_ ?_⟩
        · rw [Option.some.injEq]
          exact Nat.ne_of_lt hi
        · rw [List.drop_eq_nil_of_le (Nat.le_of_not_lt hlt), List.prefix_nil]
          exact fun h => absurd (List.drop_eq_nil_iff.mp h) (Nat.not_le_of_lt hi)

/-- `equal` is true if either list is a beginning of the other. -/
theorem equal_eq (pattern : List UInt8) (fits : data.length < 2 ^ idxBits)
    (start rest depth : Nat) (hstart : start + depth ≤ data.length)
    (hrest : depth + rest = pattern.length) :
    ∃ result, equal pattern data start rest depth = .ok result ∧
      (result = true ↔ pattern.drop depth <+: data.drop (start + depth) ∨
        data.drop (start + depth) <+: pattern.drop depth) := by
  induction rest generalizing depth with
  | zero =>
      obtain rfl : depth = pattern.length := hrest
      refine ⟨true, rfl, iff_of_true rfl (Or.inl ?_)⟩
      rw [List.drop_length]
      exact List.nil_prefix
  | succ rest ih =>
      have hdepth : depth < pattern.length := by omega
      rw [equal]
      by_cases hlast : start + depth = data.length
      · rw [if_neg (fun h => h.2 hlast)]
        refine ⟨true, rfl, iff_of_true rfl (Or.inr ?_)⟩
        rw [hlast, List.drop_length]
        exact List.nil_prefix
      · have hlt : start + depth < data.length := by omega
        rw [if_pos ⟨hdepth, hlast⟩, load_of_lt hdepth, ok_bind, load_of_lt hlt, ok_bind,
          drop_cons_prefix_drop_iff hdepth hlt, drop_cons_prefix_drop_iff hlt hdepth]
        by_cases same : pattern[depth] = data[start + depth]
        · rw [if_pos same, inc_of_lt (by omega), ok_bind]
          obtain ⟨result, run, h⟩ := ih (depth + 1) (by omega) (by omega)
          exact ⟨result, run, h.trans (or_congr (and_iff_right same).symm
            (and_iff_right same.symm).symm)⟩
        · rw [if_neg same]
          exact ⟨false, rfl, iff_of_false (by decide)
            (not_or.mpr ⟨fun h => same h.1, fun h => same h.1.symm⟩)⟩

/-- From a match on, `sec` stops at the first rank that is none. -/
theorem extend_eq (fits : data.length + 1 < 2 ^ idxBits) (hsa : IsSuffixArray data SA)
    {idx first : Nat} (hidx : SA[idx]? = some first) (found : Occurs data pattern first)
    (rest sec : Nat) (hsec : idx < sec) (hrest : sec + rest = SA.length) :
    ∃ b, extend data pattern SA pattern.length rest sec = .ok b ∧ sec ≤ b ∧ b ≤ SA.length ∧
      ∀ k p, sec ≤ k → SA[k]? = some p → (k < b ↔ Occurs data pattern p) := by
  have length := hsa.length_eq
  induction rest generalizing sec with
  | zero =>
      refine ⟨sec, rfl, Nat.le_refl _, by omega, fun k p hk hp => ?_⟩
      have := (List.getElem?_eq_some_iff.mp hp).1
      omega
  | succ rest ih =>
      have hlt : sec < SA.length := by omega
      have now := List.getElem?_eq_getElem hlt
      obtain ⟨result, run, hresult⟩ := equal_eq pattern (by omega) SA[sec] pattern.length 0
        (hsa.getElem_le hlt) (Nat.zero_add _)
      rw [Nat.add_zero, List.drop_zero, or_iff_left] at hresult
      · rw [extend, load_of_lt hlt, ok_bind, run, ok_bind]
        cases result with
        | true =>
            have match_ : Occurs data pattern SA[sec] := hresult.mp rfl
            rw [if_pos rfl, inc_of_lt (by omega), ok_bind]
            obtain ⟨b, hrun, hlo, hhi, hb⟩ := ih (sec + 1) (by omega) (by omega)
            refine ⟨b, hrun, by omega, hhi, fun k p hk hp => ?_⟩
            obtain rfl | hkgt := Nat.eq_or_lt_of_le hk
            · obtain rfl := Option.some.inj (now.symm.trans hp)
              exact iff_of_true (by omega) match_
            · exact hb k p hkgt hp
        | false =>
            have stop : ¬ Occurs data pattern SA[sec] := fun h => absurd (hresult.mpr h) (by decide)
            rw [if_neg (by decide)]
            refine ⟨sec, rfl, Nat.le_refl _, hlt.le, fun k p hk hp => ?_⟩
            refine iff_of_false (by omega) (fun h => stop ?_)
            exact hsa.prefix_of_between hidx now hp hsec.le hk found h
      · -- A suffix that ends inside the pattern would stand in front of the first match.
        intro short
        have := hsa.getElem?_lt hidx now hsec
        exact absurd this (not_lt.mpr ((le_of_isPrefix short).trans (le_of_isPrefix found)))

/-- Everything behind `std::lower_bound`, from the partition point on. -/
theorem rangeFrom_eq (fits : data.length + 1 < 2 ^ idxBits) (hsa : IsSuffixArray data SA)
    {idx : Nat} (h : Bisection.Partitioned (compSeq data pattern) SA idx) :
    ∃ range, rangeFrom data pattern SA idx = .ok range ∧ MatchRange data SA pattern range := by
  have length := hsa.length_eq
  have below : ∀ (k : Nat) p, SA[k]? = some p → k < idx → ¬ Occurs data pattern p := by
    intro k p hp hk occurs
    have hless := (h.less_iff k p hp).mpr hk
    rw [compSeq_eq, decide_eq_true_eq] at hless
    exact absurd hless (not_lt.mpr (le_of_isPrefix occurs))
  by_cases hend : idx = SA.length
  · rw [rangeFrom, if_pos hend]
    exact ⟨_, rfl, matchRange_absent (fun k p hp =>
      below k p hp (hend ▸ (List.getElem?_eq_some_iff.mp hp).1))⟩
  · have hlt : idx < SA.length := Nat.lt_of_le_of_ne h.le_length hend
    have now := List.getElem?_eq_getElem hlt
    -- Were there a match at all, the first candidate would be one.
    have first : ∀ (k : Nat) p, SA[k]? = some p → Occurs data pattern p →
        Occurs data pattern SA[idx] := by
      intro k p hp occurs
      have hk : idx ≤ k := Nat.le_of_not_lt (fun hk => below k p hp hk occurs)
      have hless := (h.less_iff idx _ now).not.mpr (Nat.lt_irrefl idx)
      rw [compSeq_eq, decide_eq_true_eq, not_lt] at hless
      exact prefix_of_le_of_le hless (hsa.getElem?_le now hp hk) occurs
    obtain ⟨result, run, hresult⟩ := confirm_eq pattern (by omega) SA[idx] pattern.length 0
      (hsa.getElem_le hlt) (Nat.zero_add _)
    rw [Nat.add_zero, List.drop_zero] at hresult
    rw [rangeFrom, if_neg hend, load_of_lt hlt, ok_bind, run, ok_bind]
    by_cases found : Occurs data pattern SA[idx]
    · obtain rfl := hresult.mpr found
      obtain ⟨sec, hrun, hlo, hhi, hsec⟩ := extend_eq fits hsa now found
        (SA.length - (idx + 1)) (idx + 1) (Nat.lt_succ_self idx) (by omega)
      refine ⟨(idx, sec), ?_, Or.inr ⟨hlo, hhi⟩, fun k p hp => ?_⟩
      · simp only [ne_eq, not_true, if_false, inc_of_lt (show idx + 1 < 2 ^ idxBits by omega),
          ok_bind, hrun, pure_eq_ok]
      · obtain hk | rfl | hk := Nat.lt_trichotomy k idx
        · exact iff_of_false (by simp only; omega) (below k p hp hk)
        · obtain rfl := Option.some.inj (now.symm.trans hp)
          exact iff_of_true ⟨Nat.le_refl _, hlo⟩ found
        · exact (and_iff_right hk.le).trans (hsec k p hk hp)
    · have absent := matchRange_absent (fun k p hp h => found (first k p hp h))
      have hne : result ≠ some pattern.length := fun h => found (hresult.mp h)
      cases result with
      | none => exact ⟨_, rfl, absent⟩
      | some d =>
          rw [Option.some_inj.ne] at hne
          exact ⟨_, if_pos hne, absent⟩

/-- The branch of `find_all_infix` taken with empty tables. -/
theorem findAllInfix_plain_eq (fits : data.length + 1 < 2 ^ idxBits)
    (hsa : IsSuffixArray data SA) (infixIn : List Int8) : ∃ range,
    (∀ fuel past, findAllInfix fuel past infixIn data SA [] [] = .ok range) ∧
      MatchRange data SA (infixIn.map alphOfChar) range := by
  obtain ⟨k, hk⟩ := exists_partition hsa (infixIn.map alphOfChar)
  obtain ⟨range, run, h⟩ := rangeFrom_eq fits hsa hk
  refine ⟨range, fun fuel past => ?_, h⟩
  rw [findAllInfix, if_neg (by decide), Bisection.lowerBound_eq hk, ok_bind, run]

/-- The plain search returns exactly the occurrences. -/
theorem findAllInfix_exact (two : 2 ≤ data.length) (fits : data.length < 2 ^ 32 - 1)
    (hsa : IsSuffixArray data SA) (infixIn : List Int8) (nonempty : infixIn ≠ []) : ∃ a b,
    (∀ fuel past, findAllInfix fuel past infixIn data SA [] [] = .ok (a, b)) ∧
      (∀ p, (∃ k : Nat, a ≤ k ∧ k < b ∧ SA[k]? = some p) ↔
        Occurs data (infixIn.map alphOfChar) p) ∧
      ((a, b) = (data.length + 1, data.length + 1) ↔
        ∀ p, ¬ Occurs data (infixIn.map alphOfChar) p) := by
  obtain ⟨⟨a, b⟩, run, h⟩ :=
    findAllInfix_plain_eq (by simp only [idxBits]; omega) hsa infixIn
  have ranked : ∀ {p}, Occurs data (infixIn.map alphOfChar) p →
      ∃ k : Nat, SA[k]? = some p := by
    intro p occurs
    have hp : p ≤ data.length := by
      by_contra hgt
      rw [Occurs, List.drop_eq_nil_of_le (by omega), List.prefix_nil, List.map_eq_nil_iff] at occurs
      exact nonempty occurs
    obtain ⟨k, hk, hrank⟩ := hsa.exists_rank hp
    exact ⟨k, hrank ▸ List.getElem?_eq_getElem hk⟩
  refine ⟨a, b, run, fun p => ⟨?_, fun occurs => ?_⟩, ⟨fun same p occurs => ?_, fun none => ?_⟩⟩
  · rintro ⟨k, hlo, hhi, hk⟩
    exact (h.exact k p hk).mp ⟨hlo, hhi⟩
  · obtain ⟨k, hk⟩ := ranked occurs
    obtain ⟨hlo, hhi⟩ := (h.exact k p hk).mpr occurs
    exact ⟨k, hlo, hhi, hk⟩
  · obtain ⟨k, hk⟩ := ranked occurs
    have := (h.exact k p hk).mpr occurs
    rw [same] at this
    omega
  · have absent : MatchRange data SA (infixIn.map alphOfChar) (SA.length, SA.length) :=
      matchRange_absent (fun k p _ => none p)
    rw [hsa.length_eq] at absent
    exact h.unique absent

theorem findAllInfix_exact_ana : ∃ a b,
    (∀ fuel past, findAllInfix fuel past [97, 110, 97] [98, 97, 110, 97, 110, 97]
      [6, 5, 3, 1, 0, 4, 2] [] [] = .ok (a, b)) ∧
      (∀ p, (∃ k : Nat, a ≤ k ∧ k < b ∧ [6, 5, 3, 1, 0, 4, 2][k]? = some p) ↔
        Occurs [98, 97, 110, 97, 110, 97] [97, 110, 97] p) ∧
      ((a, b) = (7, 7) ↔ ∀ p, ¬ Occurs [98, 97, 110, 97, 110, 97] [97, 110, 97] p) :=
  findAllInfix_exact (by decide : 2 ≤ [98, 97, 110, 97, 110, 97].length) (by decide) (by decide)
    [97, 110, 97] (by decide)

end SuffixArray.Search
