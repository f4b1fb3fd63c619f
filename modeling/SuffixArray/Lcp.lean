import SuffixArray.Bytes
import SuffixArray.InducedSorting.Buckets
import SuffixArray.PrefixOrder

/-!
# `LCP::make_lcp`

The positions are visited in text order and each suffix is compared with its
successor in rank order, from the depth `h` carried over. The last rank has no
successor. Its position is visited like any other, and the run stops there.
-/

namespace SuffixArray.Lcp

open Checked SuffixOrder
open InducedSorting (idxBits)

/-- `make_inverse`. -/
def makeInverse (SA : List Nat) (lastIdx : Nat) : Run (List Nat) :=
  forUp idxBits 1 SA.length (fun i invSA => do store invSA (← load SA i) i)
    (List.replicate SA.length lastIdx)

/-- `std::equal` from `p` and `q` on with the predicate `Compare(&h)`, over the
`rest` positions left before the end of the first range. Returns `h`. -/
def equalFrom (data : List UInt8) : (rest p q h : Nat) → Run Nat
  | 0, _, _, h => return h
  | rest + 1, p, q, h => do
    let a ← load data p
    let b ← load data q
    if a = b then equalFrom data rest (p + 1) (q + 1) (← inc idxBits h) else return h

/-- One iteration of `make_lcp`, on `h` and `lcp`. -/
def lcpStep (data : List UInt8) (SA invSA : List Nat) (i : Nat) (state : Nat × List Nat) :
    Run (Nat × List Nat) := do
  let rank ← load invSA i
  let next ← load SA (← inc idxBits rank)
  let rest ← Checked.sub data.length (i + state.1)
  let h ← equalFrom data rest (i + state.1) (next + state.1) state.1
  let lcp ← store state.2 rank h
  return (if h ≠ 0 then h - 1 else h, lcp)

def makeLcp (data : List UInt8) (SA : List Nat) : Run (List Nat) := do
  let invSA ← makeInverse SA data.length
  let state ← forUp idxBits 0 data.length (lcpStep data SA invSA)
    (0, List.replicate SA.length 0)
  return state.2.dropLast

/-- The array of longest common prefixes of neighbours in rank order. -/
def ExactLcp (data : List UInt8) (SA lcp : List Nat) : Prop :=
  lcp.length = data.length ∧ ∀ r i j, SA[r]? = some i → SA[r + 1]? = some j →
    lcp[r]? = some (commonPrefix (data.drop i) (data.drop j))

instance (data : List UInt8) (SA lcp : List Nat) : Decidable (ExactLcp data SA lcp) :=
  decidable_of_iff (lcp.length = data.length ∧ ∀ r, r < SA.length - 1 →
      lcp[r]? = some (commonPrefix (data.drop (SA.getD r 0)) (data.drop (SA.getD (r + 1) 0)))) <| by
    refine and_congr_right (fun _ => ⟨fun h r i j hi hj => ?_, fun h r hr => ?_⟩)
    · have hlt := (List.getElem?_eq_some_iff.mp hj).1
      rw [h r (by omega), List.getD_eq_getElem?_getD, List.getD_eq_getElem?_getD, hi, hj,
        Option.getD_some, Option.getD_some]
    · have hi := List.getElem?_eq_getElem (show r < SA.length by omega)
      have hj := List.getElem?_eq_getElem (show r + 1 < SA.length by omega)
      rw [h r _ _ hi hj, List.getD_eq_getElem?_getD, List.getD_eq_getElem?_getD, hi, hj,
        Option.getD_some, Option.getD_some]

/-- What `make_lcp` is there for: it reads existing elements only and returns the
exact array. -/
def MakesExactLcp (data : List UInt8) (SA : List Nat) : Prop :=
  ∃ lcp, makeLcp data SA = .ok lcp ∧ ExactLcp data SA lcp

variable {data : List UInt8} {SA : List Nat}

/-- `make_inverse` leaves the fill value at the end position, whose rank it skips. -/
theorem makeInverse_eq (fits : data.length + 1 < 2 ^ idxBits) (hsa : IsSuffixArray data SA) :
    ∃ rank : Nat → Nat, makeInverse SA data.length = .ok ((List.range SA.length).map rank) ∧
      ∀ r i, 0 < r → SA[r]? = some i → rank i = r := by
  have length := hsa.length_eq
  let inv (k : Nat) (invSA : List Nat) : Prop := ∃ rank : Nat → Nat,
    invSA = (List.range SA.length).map rank ∧
      ∀ r i, 0 < r → r < k → SA[r]? = some i → rank i = r
  have init : inv 1 (List.replicate SA.length data.length) :=
    ⟨_, InducedSorting.replicate_eq_table _ _, fun r i hpos hlt => absurd hpos (by omega)⟩
  have step : ∀ k invSA, 1 ≤ k → k < SA.length → inv k invSA → ∃ t, (do
      store invSA (← load SA k) k) = .ok t ∧ inv (k + 1) t := by
    rintro k _ _ hk ⟨rank, rfl, hrank⟩
    have now := List.getElem?_eq_getElem hk
    have hle := hsa.getElem_le hk
    refine ⟨_, ?_, fun j => if j = SA[k] then k else rank j, rfl, ?_⟩
    · rw [load_eq_ok.mpr now, ok_bind, InducedSorting.store_table rank (by omega)]
    · intro r i hpos hlt hi
      obtain rfl | hrk := Nat.eq_or_lt_of_le (Nat.le_of_lt_succ hlt)
      · exact if_pos (Option.some.inj (hi.symm.trans now))
      · have hne : i ≠ SA[k] := by
          rintro rfl
          exact absurd ((List.getElem?_inj (hrk.trans hk) hsa.nodup).mp (hi.trans now.symm))
            (Nat.ne_of_lt hrk)
        exact (if_neg hne).trans (hrank r i hpos hrk hi)
  obtain ⟨_, run, rank, rfl, hrank⟩ :=
    forUp_ok inv (by omega : 1 ≤ SA.length) (length ▸ fits) init step
  exact ⟨rank, run, fun r i hpos hi =>
    hrank r i hpos (List.getElem?_eq_some_iff.mp hi).1 hi⟩

/-- The iteration at the position of the last rank reads behind the end of `SA`,
whatever was carried into it. -/
theorem lcpStep_last {rank : Nat → Nat} {last : Nat} (hlast : last < SA.length)
    (hrank : rank last + 1 = SA.length) (fits : SA.length < 2 ^ idxBits)
    (state : Nat × List Nat) :
    lcpStep data SA ((List.range SA.length).map rank) last state = .error .outOfRange := by
  rw [lcpStep, InducedSorting.load_table rank hlast, ok_bind, inc_of_lt (hrank ▸ fits), ok_bind,
    load_of_le (Nat.le_of_eq hrank.symm), error_bind]

theorem makeLcp_ne_ok (pos : 0 < data.length) (fits : data.length + 1 < 2 ^ idxBits)
    (hsa : IsSuffixArray data SA) (lcp : List Nat) : makeLcp data SA ≠ .ok lcp := by
  have length := hsa.length_eq
  obtain ⟨rank, inverse, hrank⟩ := makeInverse_eq fits hsa
  have now := List.getElem?_eq_getElem (show data.length < SA.length by omega)
  set last := SA[data.length] with hlast
  have hle : last ≤ data.length := hsa.getElem_le (by omega)
  have hlt : last < data.length := by
    refine Nat.lt_of_le_of_ne hle (fun same => ?_)
    have first := hsa.getElem?_zero
    rw [← same, ← now] at first
    have := (List.getElem?_inj (by omega) hsa.nodup).mp first
    omega
  have stuck : ∀ state t, lcpStep data SA ((List.range SA.length).map rank) last state ≠ .ok t := by
    intro state t
    rw [lcpStep_last (by omega) (by rw [hrank _ _ pos now, length]) (by omega)]
    exact fun h => nomatch h
  intro run
  rw [makeLcp, inverse, ok_bind] at run
  cases hloop : forUp idxBits 0 data.length (lcpStep data SA ((List.range SA.length).map rank))
      (0, List.replicate SA.length 0) with
  | error e =>
      rw [hloop] at run
      exact nomatch run
  | ok state => exact forUp_ne_ok (Nat.zero_le _) hlt stuck _ _ hloop

/-- No string and suffix array gets through `make_lcp`. -/
theorem makeLcp_never_exact (two : 2 ≤ data.length) (fits : data.length < 2 ^ 32 - 1)
    (hsa : IsSuffixArray data SA) : ¬ MakesExactLcp data SA := by
  rintro ⟨lcp, run, _⟩
  exact makeLcp_ne_ok (by omega) (by simp only [idxBits]; omega) hsa lcp run

theorem makeLcp_never_exact_ab : ¬ MakesExactLcp [97, 98] [2, 0, 1] :=
  makeLcp_never_exact (by decide) (by decide) (by decide)

/-- On `ab` the second visit asks for the successor of the last rank. -/
theorem makeLcp_ab_faults : IsSuffixArray ([97, 98] : List UInt8) [2, 0, 1] ∧
    makeLcp [97, 98] [2, 0, 1] = .error .outOfRange ∧ ¬ MakesExactLcp [97, 98] [2, 0, 1] := by
  have fault : makeLcp [97, 98] [2, 0, 1] = .error .outOfRange := by decide
  refine ⟨by decide, fault, ?_⟩
  rintro ⟨lcp, run, _⟩
  rw [fault] at run
  cases run

section Carry

/-- The second range has no end of its own. A greater list is never exhausted first, so the
comparison stays inside both and counts their common prefix. -/
theorem equalFrom_eq {rest p q h : Nat} (hp : p + rest = data.length)
    (hlt : data.drop p < data.drop q) (fits : h + rest < 2 ^ idxBits) :
    equalFrom data rest p q h = .ok (h + commonPrefix (data.drop p) (data.drop q)) := by
  induction rest generalizing p q h with
  | zero =>
      have hnil : data.drop p = [] := List.drop_eq_nil_of_le (by omega)
      rw [equalFrom, hnil]
      rfl
  | succ rest ih =>
      have hplt : p < data.length := by omega
      have hqlt : q < data.length := by
        by_contra hge
        rw [List.drop_eq_nil_of_le (Nat.le_of_not_lt hge)] at hlt
        exact List.not_lt_nil _ hlt
      rw [List.drop_eq_getElem_cons hplt, List.drop_eq_getElem_cons hqlt] at hlt ⊢
      rw [equalFrom, load_of_lt hplt, ok_bind, load_of_lt hqlt, ok_bind, commonPrefix_cons]
      by_cases same : data[p] = data[q]
      · have tails : data.drop (p + 1) < data.drop (q + 1) := by
          obtain hless | ⟨_, tails⟩ := List.cons_lt_cons_iff.mp hlt
          · exact absurd same (ne_of_lt hless)
          · exact tails
        rw [if_pos same, if_pos same, inc_of_lt (by omega), ok_bind,
          ih (by omega) tails (by omega), Nat.add_right_comm, Nat.add_assoc]
      · rw [if_neg same, if_neg same]
        rfl

/-- The iteration at a position with a successor. -/
theorem lcpStep_eq {rank : Nat → Nat} {i r j h : Nat} {lcp : List Nat}
    (fits : data.length + 1 < 2 ^ idxBits) (hsa : IsSuffixArray data SA) (hi : i < data.length)
    (hrank : rank i = r) (hr : SA[r]? = some i) (hj : SA[r + 1]? = some j)
    (length : lcp.length = SA.length) (hh : h ≤ commonPrefix (data.drop i) (data.drop j)) :
    lcpStep data SA ((List.range SA.length).map rank) i (h, lcp) =
      .ok (commonPrefix (data.drop i) (data.drop j) - 1,
        lcp.set r (commonPrefix (data.drop i) (data.drop j))) := by
  have saLength := hsa.length_eq
  have hrlt := (List.getElem?_eq_some_iff.mp hr).1
  have hle := hh.trans (commonPrefix_le_length _ _)
  rw [List.length_drop] at hle
  have behind := drop_lt_drop_of_shared hh (hsa.getElem?_lt hr hj (Nat.lt_succ_self r))
  rw [List.drop_drop, List.drop_drop] at behind
  rw [lcpStep, InducedSorting.load_table rank (by omega), ok_bind, hrank, inc_of_lt (by omega),
    ok_bind, load_eq_ok.mpr hj, ok_bind, sub_of_le (by omega), ok_bind,
    equalFrom_eq (by omega) behind (by omega), ok_bind, ← List.drop_drop, ← List.drop_drop,
    ← commonPrefix_eq_add hh, store_of_lt (length ▸ hrlt), ok_bind, pure_eq_ok]
  congr 2
  split <;> omega

/-- Dropping one character keeps the order of the two neighbours, and the new successor lies
between them. -/
theorem carry_le {i j r r' j' : Nat} (hsa : IsSuffixArray data SA) (hr : SA[r]? = some i)
    (hj : SA[r + 1]? = some j) (hr' : SA[r']? = some (i + 1)) (hj' : SA[r' + 1]? = some j') :
    commonPrefix (data.drop i) (data.drop j) - 1 ≤
      commonPrefix (data.drop (i + 1)) (data.drop j') := by
  obtain hzero | hpos := Nat.lt_or_ge (commonPrefix (data.drop i) (data.drop j)) 1
  · omega
  · have tails := drop_lt_drop_of_shared hpos (hsa.getElem?_lt hr hj (Nat.lt_succ_self r))
    have shorter := commonPrefix_eq_add hpos
    rw [List.drop_drop, List.drop_drop] at tails shorter
    have hlt : j < data.length := by
      by_contra hge
      rw [List.drop_eq_nil_of_le (by omega : data.length ≤ j + 1)] at tails
      exact List.not_lt_nil _ tails
    obtain ⟨s, hs, hsj⟩ := hsa.exists_rank (show j + 1 ≤ data.length from hlt)
    have hs? : SA[s]? = some (j + 1) := List.getElem?_eq_some_iff.mpr ⟨hs, hsj⟩
    have ordered : r' < s := by
      by_contra hge
      exact absurd tails (not_lt.mpr (hsa.getElem?_le hs? hr' (Nat.le_of_not_lt hge)))
    have enough : commonPrefix (data.drop i) (data.drop j) - 1 ≤ (data.drop (i + 1)).length := by
      have := commonPrefix_le_length (data.drop (i + 1)) (data.drop (j + 1))
      omega
    have shared := (take_prefix_iff enough).mpr (by omega :
      _ ≤ commonPrefix (data.drop (i + 1)) (data.drop (j + 1)))
    exact (take_prefix_iff enough).mp (hsa.prefix_of_between hr' hj' hs? (Nat.le_succ r') ordered
      (List.take_prefix _ _) shared)

/-- With the inverse that `make_inverse` returns, every iteration at a position with a successor
stores the exact entry and carries out a depth that the next one may start from. -/
theorem lcpStep_carry (fits : data.length < 2 ^ 32 - 1) (hsa : IsSuffixArray data SA) :
    ∃ invSA, makeInverse SA data.length = .ok invSA ∧
      ∀ (i r j h : Nat) (lcp : List Nat), i < data.length → SA[r]? = some i →
        SA[r + 1]? = some j → lcp.length = SA.length →
        h ≤ commonPrefix (data.drop i) (data.drop j) →
        invSA[i]? = some r ∧ ∃ h',
          lcpStep data SA invSA i (h, lcp) =
            .ok (h', lcp.set r (commonPrefix (data.drop i) (data.drop j))) ∧
          ∀ r' j' : Nat, SA[r']? = some (i + 1) → SA[r' + 1]? = some j' →
            h' ≤ commonPrefix (data.drop (i + 1)) (data.drop j') := by
  have small : data.length + 1 < 2 ^ idxBits := by
    simp only [idxBits]
    omega
  obtain ⟨rank, inverse, hrank⟩ := makeInverse_eq small hsa
  refine ⟨_, inverse, fun i r j h lcp hi hr hj length hh => ?_⟩
  -- Only the empty suffix has rank zero.
  have hpos : 0 < r := by
    by_contra hzero
    obtain rfl : r = 0 := by omega
    have := Option.some.inj (hr.symm.trans hsa.getElem?_zero)
    omega
  have saLength := hsa.length_eq
  constructor
  · exact (load_eq_ok.mp (InducedSorting.load_table rank (by omega))).trans
      (congrArg some (hrank r i hpos hr))
  · exact ⟨_, lcpStep_eq small hsa hi (hrank r i hpos hr) hr hj length hh,
      fun r' j' hr' hj' => carry_le hsa hr hj hr' hj'⟩

/-- On `aa` the first iteration carries nothing in and nothing out. -/
theorem lcpStep_carry_aa : ∃ invSA, makeInverse [2, 1, 0] 2 = .ok invSA ∧
    ∀ (i r j h : Nat) (lcp : List Nat), i < 2 → [2, 1, 0][r]? = some i →
      [2, 1, 0][r + 1]? = some j → lcp.length = 3 →
      h ≤ commonPrefix (([97, 97] : List UInt8).drop i) ([97, 97].drop j) →
      invSA[i]? = some r ∧ ∃ h',
        lcpStep [97, 97] [2, 1, 0] invSA i (h, lcp) =
          .ok (h', lcp.set r (commonPrefix (([97, 97] : List UInt8).drop i) ([97, 97].drop j))) ∧
        ∀ r' j' : Nat, [2, 1, 0][r']? = some (i + 1) → [2, 1, 0][r' + 1]? = some j' →
          h' ≤ commonPrefix (([97, 97] : List UInt8).drop (i + 1)) ([97, 97].drop j') :=
  @lcpStep_carry [97, 97] [2, 1, 0] (by decide) (by decide)

end Carry

end SuffixArray.Lcp
