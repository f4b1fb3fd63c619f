import SuffixArray.Lcp

/-!
# How far `make_lcp` gets

The iterations come in text order. Up to the position of the greatest suffix each of them
stores the exact entry of its rank; at that position the run leaves `SA`.
-/

namespace SuffixArray.Lcp

open Checked SuffixOrder
open InducedSorting (idxBits)

variable {data : List UInt8} {SA : List Nat}

/-- In front of the iteration at `i`: the entries of the positions visited are exact, and
the depth carried in is not too large. -/
structure Filled (data : List UInt8) (SA : List Nat) (i : Nat) (state : Nat × List Nat) :
    Prop where
  length : state.2.length = SA.length
  entries : ∀ p < i, ∀ r j : Nat, SA[r]? = some p → SA[r + 1]? = some j →
    state.2[r]? = some (commonPrefix (data.drop p) (data.drop j))
  carried : ∀ r j : Nat, SA[r]? = some i → SA[r + 1]? = some j →
    state.1 ≤ commonPrefix (data.drop i) (data.drop j)

theorem Filled.start (data : List UInt8) (SA : List Nat) :
    Filled data SA 0 (0, List.replicate SA.length 0) where
  length := List.length_replicate
  entries p hp := absurd hp (Nat.not_lt_zero p)
  carried _ _ _ _ := Nat.zero_le _

/-- One iteration at a position with a successor. -/
theorem Filled.next {rank : Nat → Nat} {i r j : Nat} {state : Nat × List Nat}
    (h : Filled data SA i state) (fits : data.length + 1 < 2 ^ idxBits)
    (hsa : IsSuffixArray data SA) (hi : i < data.length) (hrank : rank i = r)
    (hr : SA[r]? = some i) (hj : SA[r + 1]? = some j) :
    ∃ state', lcpStep data SA ((List.range SA.length).map rank) i state = .ok state' ∧
      Filled data SA (i + 1) state' := by
  refine ⟨_, lcpStep_eq fits hsa hi hrank hr hj h.length (h.carried r j hr hj), ?_, ?_, ?_⟩
  · rw [List.length_set]
    exact h.length
  · intro p hp r' j' hr' hj'
    obtain rfl | hlt := Nat.eq_or_lt_of_le (Nat.le_of_lt_succ hp)
    · have same := (List.getElem?_inj (List.getElem?_eq_some_iff.mp hr).1 hsa.nodup).mp
        (hr.trans hr'.symm)
      subst same
      obtain rfl := Option.some.inj (hj.symm.trans hj')
      rw [List.getElem?_set_self]
      rw [h.length]
      exact (List.getElem?_eq_some_iff.mp hr).1
    · have other : r ≠ r' := by
        rintro rfl
        have := Option.some.inj (hr.symm.trans hr')
        omega
      rw [List.getElem?_set_ne other]
      exact h.entries p hlt r' j' hr' hj'
  · intro r' j' hr' hj'
    exact carry_le hsa hr hj hr' hj'

/-- Only the empty suffix has rank zero. -/
theorem rank_pos {r i : Nat} (hsa : IsSuffixArray data SA) (hr : SA[r]? = some i)
    (hi : i < data.length) : 0 < r := by
  by_contra hzero
  obtain rfl : r = 0 := by omega
  have := Option.some.inj (hr.symm.trans hsa.getElem?_zero)
  omega

/-- The empty suffix is not the greatest. -/
theorem last_lt (pos : 0 < data.length) (hsa : IsSuffixArray data SA) {last : Nat}
    (hlast : SA[data.length]? = some last) : last < data.length := by
  have length := hsa.length_eq
  have less := hsa.getElem?_lt hsa.getElem?_zero hlast pos
  rw [List.drop_length] at less
  by_contra hge
  rw [List.drop_eq_nil_of_le (Nat.le_of_not_lt hge)] at less
  exact lt_irrefl _ less

/-- The run comes to the position of the greatest suffix, whose rank is the last one, and asks for
the element of `SA` behind it. -/
def ReadsBehind (data : List UInt8) (SA : List Nat) : Prop :=
  ∃ invSA last state, makeInverse SA data.length = .ok invSA ∧ SA[data.length]? = some last ∧
    last < data.length ∧
    forUp idxBits 0 last (lcpStep data SA invSA) (0, List.replicate SA.length 0) = .ok state ∧
    load invSA last = .ok data.length ∧ load SA (data.length + 1) = .error .outOfRange

theorem readsBehind (pos : 0 < data.length) (fits : data.length + 1 < 2 ^ idxBits)
    (hsa : IsSuffixArray data SA) : ReadsBehind data SA := by
  obtain ⟨rank, inverse, hrank⟩ := makeInverse_eq fits hsa
  have length := hsa.length_eq
  obtain ⟨last, hlast⟩ : ∃ last, SA[data.length]? = some last :=
    ⟨_, List.getElem?_eq_getElem (show data.length < SA.length by omega)⟩
  have inside := last_lt pos hsa hlast
  have step : ∀ i state, 0 ≤ i → i < last → Filled data SA i state →
      ∃ state', lcpStep data SA ((List.range SA.length).map rank) i state = .ok state' ∧
        Filled data SA (i + 1) state' := by
    intro i state _ hi h
    obtain ⟨r, hr, rfl⟩ := hsa.exists_rank (show i ≤ data.length by omega)
    have hr? := List.getElem?_eq_getElem hr
    have other : r ≠ data.length := by
      rintro rfl
      have := Option.some.inj (hr?.symm.trans hlast)
      omega
    exact h.next fits hsa (by omega) (hrank r _ (rank_pos hsa hr? (by omega)) hr?) hr?
      (List.getElem?_eq_getElem (show r + 1 < SA.length by omega))
  obtain ⟨state, run, -⟩ := forUp_ok (Filled data SA) (Nat.zero_le last)
    (show last < 2 ^ idxBits by omega) (Filled.start data SA) step
  refine ⟨_, last, state, inverse, hlast, inside, run, ?_, load_of_le (Nat.le_of_eq length)⟩
  rw [InducedSorting.load_table rank (by omega), hrank _ _ pos hlast]

/-- That is where `make_lcp` ends. -/
theorem ReadsBehind.fault (h : ReadsBehind data SA) (fits : data.length + 1 < 2 ^ idxBits) :
    makeLcp data SA = .error .outOfRange := by
  obtain ⟨invSA, last, state, inverse, -, inside, run, rank, behind⟩ := h
  have step : lcpStep data SA invSA last state = .error .outOfRange := by
    rw [lcpStep, rank, ok_bind, inc_of_lt fits, ok_bind, behind, error_bind]
  rw [makeLcp, inverse, ok_bind, forUp_error (Nat.zero_le _) inside run step, error_bind]

end SuffixArray.Lcp
