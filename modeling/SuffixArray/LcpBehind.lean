import SuffixArray.LcpRun

/-!
# `make_lcp` over the word behind `SA`

The iteration at the greatest suffix reads `SA` at its length. Where the memory behind the
vector can be read, the run goes on with the word that lies there, and whether it still ends
with the exact array depends on that word alone.
-/

namespace SuffixArray.Lcp

open Checked SuffixOrder
open InducedSorting (idxBits)

/-- `SA[i]` when the word behind the vector, if any, can be read like an element. -/
def loadBehind (SA : List Nat) (behind : Option Nat) (i : Nat) : Run Nat :=
  load (SA ++ behind.toList) i

/-- One iteration of `make_lcp`, as `lcpStep` but for the read of the successor. -/
def lcpStepBehind (behind : Option Nat) (data : List UInt8) (SA invSA : List Nat) (i : Nat)
    (state : Nat × List Nat) : Run (Nat × List Nat) := do
  let rank ← load invSA i
  let next ← loadBehind SA behind (← inc idxBits rank)
  let rest ← Checked.sub data.length (i + state.1)
  let h ← equalFrom data rest (i + state.1) (next + state.1) state.1
  let lcp ← store state.2 rank h
  return (if h ≠ 0 then h - 1 else h, lcp)

def makeLcpBehind (behind : Option Nat) (data : List UInt8) (SA : List Nat) :
    Run (List Nat) := do
  let invSA ← makeInverse SA data.length
  let state ← forUp idxBits 0 data.length (lcpStepBehind behind data SA invSA)
    (0, List.replicate SA.length 0)
  return state.2.dropLast

/-- The suffix at `q` is a proper beginning of the one at `p` and is exhausted first. -/
def Overruns (data : List UInt8) (p q : Nat) : Prop :=
  data.drop q <+: data.drop p ∧ data.drop q ≠ data.drop p

/-- The word `j` behind `SA`, met at the position `last` of the greatest suffix. The comparison
with the suffix at `j` ends inside the data, and what it finds is not too deep for the
position that comes next. -/
structure Harmless (data : List UInt8) (SA : List Nat) (last j : Nat) : Prop where
  inside : ¬ Overruns data last j
  shallow : ∀ r i : Nat, SA[r]? = some (last + 1) → SA[r + 1]? = some i →
    commonPrefix (data.drop last) (data.drop j) ≤
      commonPrefix (data.drop (last + 1)) (data.drop i) + 1

variable {data : List UInt8} {SA : List Nat} {behind : Option Nat}

theorem loadBehind_of_lt {i : Nat} (h : i < SA.length) : loadBehind SA behind i = load SA i := by
  rw [loadBehind, load, load, List.getElem?_append_left h]

theorem loadBehind_length (SA : List Nat) (j : Nat) : loadBehind SA (some j) SA.length = .ok j := by
  refine load_eq_ok.mpr ?_
  rw [List.getElem?_append_right (Nat.le_refl _), Nat.sub_self]
  rfl

/-- With nothing to read behind `SA` this is `make_lcp` as it stands. -/
theorem makeLcpBehind_none (data : List UInt8) (SA : List Nat) :
    makeLcpBehind none data SA = makeLcp data SA := by
  have step : ∀ invSA, lcpStepBehind none data SA invSA = lcpStep data SA invSA := by
    intro invSA
    funext i state
    simp only [lcpStepBehind, lcpStep, loadBehind, Option.toList_none, List.append_nil]
  simp only [makeLcpBehind, makeLcp, step]

/-- What an iteration does without the word, it does with it. -/
theorem lcpStepBehind_of_ok {invSA : List Nat} {i : Nat} {state state' : Nat × List Nat}
    (run : lcpStep data SA invSA i state = .ok state') :
    lcpStepBehind behind data SA invSA i state = .ok state' := by
  obtain ⟨rank, hrank, run⟩ := bind_eq_ok.mp run
  obtain ⟨successor, hsuccessor, run⟩ := bind_eq_ok.mp run
  obtain ⟨next, hnext, run⟩ := bind_eq_ok.mp run
  have inside := (List.getElem?_eq_some_iff.mp (load_eq_ok.mp hnext)).1
  rw [lcpStepBehind, hrank, ok_bind, hsuccessor, ok_bind, loadBehind_of_lt inside, hnext, ok_bind]
  exact run

section Comparison

variable {p q : Nat}

theorem Overruns.of_le (hp : p < data.length) (hq : data.length ≤ q) : Overruns data p q := by
  rw [Overruns, List.drop_eq_nil_of_le hq, List.drop_eq_getElem_cons hp]
  exact ⟨List.nil_prefix, (List.cons_ne_nil _ _).symm⟩

theorem not_overruns_length (q : Nat) : ¬ Overruns data data.length q := by
  rw [Overruns, List.drop_length]
  exact fun ⟨h, hne⟩ => hne (List.prefix_nil.mp h)

theorem overruns_iff (hp : p < data.length) (hq : q < data.length) :
    Overruns data p q ↔ data[p] = data[q] ∧ Overruns data (p + 1) (q + 1) := by
  rw [Overruns, Overruns, List.drop_eq_getElem_cons hp, List.drop_eq_getElem_cons hq,
    List.cons_prefix_cons, and_assoc, eq_comm]
  refine and_congr_right (fun same => and_congr_right (fun _ => ?_))
  rw [ne_eq, List.cons.injEq, not_and, imp_iff_right same.symm]

/-- Without an end of its own the second range is left behind if it is exhausted first. -/
theorem equalFrom_overrun {rest h : Nat} (hp : p + rest = data.length) (short : Overruns data p q)
    (fits : h + rest < 2 ^ idxBits) : equalFrom data rest p q h = .error .outOfRange := by
  induction rest generalizing p q h with
  | zero =>
      obtain rfl : p = data.length := hp
      exact absurd short (not_overruns_length q)
  | succ rest ih =>
      have hplt : p < data.length := by omega
      rw [equalFrom, load_of_lt hplt, ok_bind]
      obtain hqlt | hqge := Nat.lt_or_ge q data.length
      · obtain ⟨same, further⟩ := (overruns_iff hplt hqlt).mp short
        rw [load_of_lt hqlt, ok_bind, if_pos same, inc_of_lt (by omega), ok_bind,
          ih (by omega) further (by omega)]
      · rw [load_of_le hqge, error_bind]

theorem equalFrom_inside {rest h : Nat} (hp : p + rest = data.length)
    (long : ¬ Overruns data p q) (fits : h + rest < 2 ^ idxBits) :
    equalFrom data rest p q h = .ok (h + commonPrefix (data.drop p) (data.drop q)) := by
  induction rest generalizing p q h with
  | zero =>
      obtain rfl : p = data.length := hp
      rw [equalFrom, List.drop_length]
      rfl
  | succ rest ih =>
      have hplt : p < data.length := by omega
      have hqlt : q < data.length := by
        by_contra hge
        exact long (Overruns.of_le hplt (Nat.le_of_not_lt hge))
      rw [overruns_iff hplt hqlt, not_and] at long
      rw [equalFrom, load_of_lt hplt, ok_bind, load_of_lt hqlt, ok_bind,
        List.drop_eq_getElem_cons hplt, List.drop_eq_getElem_cons hqlt, commonPrefix_cons]
      by_cases same : data[p] = data[q]
      · rw [if_pos same, if_pos same, inc_of_lt (by omega), ok_bind,
          ih (by omega) (long same) (by omega), Nat.add_right_comm, Nat.add_assoc]
      · rw [if_neg same, if_neg same]
        rfl

end Comparison

theorem equalFrom_ge (rest p q h : Nat) : Ensures (equalFrom data rest p q h) (h ≤ ·) := by
  induction rest generalizing p q h with
  | zero => exact Ensures.pure (Nat.le_refl h)
  | succ rest ih =>
      rw [equalFrom]
      refine Ensures.bind_any (fun a _ => Ensures.bind_any (fun b _ => Ensures.ite ?_ ?_))
      · intro _
        refine Ensures.bind_any (fun k hk => (ih _ _ _).mono (fun _ hle => ?_))
        have := (add_eq_ok.mp hk).2
        omega
      · exact fun _ => Ensures.pure (Nat.le_refl h)

/-- An iteration stores at its own rank, and nothing less than what was carried in. -/
theorem lcpStepBehind_stores {invSA : List Nat} {i rank : Nat} (hrank : load invSA i = .ok rank)
    (state : Nat × List Nat) : Ensures (lcpStepBehind behind data SA invSA i state)
      (fun state' => rank < state.2.length ∧
        ∃ v, state.1 ≤ v ∧ state' = (v - 1, state.2.set rank v)) := by
  rw [lcpStepBehind, hrank, ok_bind]
  refine Ensures.bind_any (fun _ _ => Ensures.bind_any (fun next _ => Ensures.bind_any
    (fun rest _ => Ensures.bind (equalFrom_ge rest _ _ _) (fun v hv => Ensures.bind_any
      (fun lcp hstore => Ensures.pure ?_)))))
  obtain ⟨hlt, rfl⟩ := store_eq_ok.mp hstore
  refine ⟨hlt, v, hv, ?_⟩
  congr 1
  split <;> omega

section Last

variable {last j : Nat}

/-- A word is harmless if it leads to a character other than the greatest. -/
theorem Harmless.of_ne (hi : last < data.length) (hj : j < data.length)
    (other : data[last] ≠ data[j]) : Harmless data SA last j where
  inside := fun short => other ((overruns_iff hi hj).mp short).1
  shallow := by
    intro r k _ _
    rw [List.drop_eq_getElem_cons hi, List.drop_eq_getElem_cons hj, commonPrefix_cons,
      if_neg other]
    exact Nat.zero_le _

/-- A position right in front of the greatest suffix shares nothing with its successor, which
would be greater still one character on. -/
theorem commonPrefix_before_last {r p k : Nat} (hsa : IsSuffixArray data SA)
    (hp : SA[r]? = some p) (hk : SA[r + 1]? = some k) (hlast : SA[data.length]? = some (p + 1)) :
    commonPrefix (data.drop p) (data.drop k) = 0 := by
  by_contra hpos
  have tails := drop_lt_drop_of_shared (Nat.one_le_iff_ne_zero.mpr hpos)
    (hsa.getElem?_lt hp hk (Nat.lt_succ_self r))
  rw [List.drop_drop, List.drop_drop] at tails
  have hlt : k < data.length := by
    by_contra hge
    rw [List.drop_eq_nil_of_le (by omega : data.length ≤ k + 1)] at tails
    exact List.not_lt_nil _ tails
  obtain ⟨s, hs, hsk⟩ := hsa.exists_rank (show k + 1 ≤ data.length from hlt)
  have length := hsa.length_eq
  have greatest := hsa.getElem?_le (List.getElem?_eq_some_iff.mpr ⟨hs, hsk⟩) hlast (by omega)
  exact absurd tails (not_lt.mpr greatest)

/-- The iteration at the greatest suffix, reached with nothing carried in. -/
theorem lcpStepBehind_last {rank : Nat → Nat} {lcp : List Nat}
    (fits : data.length + 1 < 2 ^ idxBits) (hsa : IsSuffixArray data SA)
    (inside : last < data.length) (hrank : rank last = data.length) :
    lcpStepBehind (some j) data SA ((List.range SA.length).map rank) last (0, lcp) = do
      let h ← equalFrom data (data.length - last) last j 0
      let lcp ← store lcp data.length h
      return (if h ≠ 0 then h - 1 else h, lcp) := by
  have length := hsa.length_eq
  rw [lcpStepBehind, InducedSorting.load_table rank (by omega), ok_bind, hrank,
    inc_of_lt fits, ok_bind, ← length, loadBehind_length, ok_bind, sub_of_le (by omega), ok_bind]
  rfl

end Last

/-- In front of the iteration at `i` of a run on its way to `last` or past it unharmed. -/
structure Ahead (data : List UInt8) (SA : List Nat) (last i : Nat) (state : Nat × List Nat) :
    Prop where
  filled : Filled data SA i state
  first : state.2[0]? = some 0
  fresh : i = last → state.1 = 0

/-- In front of the iteration at `i` of a run that got past `last` with depth `d`. -/
structure Beyond (SA : List Nat) (last d i : Nat) (state : Nat × List Nat) : Prop where
  carried : i = last + 1 → state.1 = d
  stored : last + 1 < i → ∀ r : Nat, SA[r]? = some (last + 1) →
    ∃ v, state.2[r]? = some v ∧ d ≤ v

/-- What `make_inverse` returns, as the iterations use it. -/
structure Inverts (data : List UInt8) (SA : List Nat) (rank : Nat → Nat) : Prop where
  suffixes : IsSuffixArray data SA
  fits : data.length + 1 < 2 ^ idxBits
  rank_eq : ∀ r p : Nat, 0 < r → SA[r]? = some p → rank p = r

section Run

variable {rank : Nat → Nat} {last j i : Nat} {state : Nat × List Nat}

theorem Inverts.exists_rank (h : Inverts data SA rank) (hi : i < data.length) :
    0 < rank i ∧ SA[rank i]? = some i := by
  obtain ⟨r, hr, rfl⟩ := h.suffixes.exists_rank (Nat.le_of_lt hi)
  have hr? := List.getElem?_eq_getElem hr
  have hpos := rank_pos h.suffixes hr? hi
  rw [h.rank_eq r _ hpos hr?]
  exact ⟨hpos, hr?⟩

theorem Inverts.load (h : Inverts data SA rank) (hi : i < data.length) :
    load ((List.range SA.length).map rank) i = .ok (rank i) :=
  InducedSorting.load_table rank (by rw [h.suffixes.length_eq]; omega)

/-- A position other than that of the greatest suffix has a successor. -/
theorem Inverts.exists_next (h : Inverts data SA rank) (hi : i < data.length)
    (hlast : SA[data.length]? = some last) (other : i ≠ last) :
    ∃ k, SA[rank i + 1]? = some k := by
  obtain ⟨_, hr⟩ := h.exists_rank hi
  have hlt := (List.getElem?_eq_some_iff.mp hr).1
  have length := h.suffixes.length_eq
  have below : rank i ≠ data.length := by
    intro same
    rw [same, hlast] at hr
    exact other (Option.some.inj hr).symm
  exact ⟨_, List.getElem?_eq_getElem (by omega)⟩

theorem Ahead.start (data : List UInt8) (SA : List Nat) (last : Nat) (pos : 0 < SA.length) :
    Ahead data SA last 0 (0, List.replicate SA.length 0) where
  filled := Filled.start data SA
  first := by rw [List.getElem?_replicate, if_pos pos]
  fresh _ := rfl

theorem Ahead.next (h : Ahead data SA last i state) (hinv : Inverts data SA rank)
    (hi : i < data.length) (hlast : SA[data.length]? = some last) (other : i ≠ last) :
    ∃ state', lcpStepBehind behind data SA ((List.range SA.length).map rank) i state =
      .ok state' ∧ Ahead data SA last (i + 1) state' := by
  obtain ⟨hpos, hr⟩ := hinv.exists_rank hi
  obtain ⟨k, hk⟩ := hinv.exists_next hi hlast other
  obtain ⟨state', run, filled⟩ := h.filled.next hinv.fits hinv.suffixes hi rfl hr hk
  have exact := lcpStep_eq hinv.fits hinv.suffixes hi rfl hr hk h.filled.length
    (h.filled.carried _ _ hr hk)
  obtain rfl := Except.ok.inj (run.symm.trans exact)
  refine ⟨_, lcpStepBehind_of_ok run, filled, ?_, ?_⟩
  · rw [List.getElem?_set_ne hpos.ne']
    exact h.first
  · rintro rfl
    rw [commonPrefix_before_last hinv.suffixes hr hk hlast]

/-- A harmless word keeps the invariant. -/
theorem Ahead.past_last (h : Ahead data SA last last state) (hinv : Inverts data SA rank)
    (hi : last < data.length) (hlast : SA[data.length]? = some last)
    (harmless : Harmless data SA last j) :
    ∃ state', lcpStepBehind (some j) data SA ((List.range SA.length).map rank) last state =
      .ok state' ∧ Ahead data SA last (last + 1) state' := by
  obtain ⟨carry, lcp⟩ := state
  obtain rfl : carry = 0 := h.fresh rfl
  have length := hinv.suffixes.length_eq
  have hlength : lcp.length = SA.length := h.filled.length
  have hrank := hinv.rank_eq _ _ (by omega) hlast
  have fits := hinv.fits
  refine ⟨(commonPrefix (data.drop last) (data.drop j) - 1,
    lcp.set data.length (commonPrefix (data.drop last) (data.drop j))), ?_, ⟨?_, ?_, ?_⟩, ?_, ?_⟩
  · rw [lcpStepBehind_last hinv.fits hinv.suffixes hi hrank,
      equalFrom_inside (by omega) harmless.inside (by omega), ok_bind, Nat.zero_add,
      store_of_lt (by omega), ok_bind, pure_eq_ok]
    congr 2
    split <;> omega
  · rw [List.length_set]
    exact hlength
  · -- The rank written has no successor.
    intro p hp r k hr hk
    have other : data.length ≠ r := by
      rintro rfl
      have := (List.getElem?_eq_some_iff.mp hk).1
      omega
    have before : p < last := by
      refine Nat.lt_of_le_of_ne (Nat.le_of_lt_succ hp) ?_
      rintro rfl
      exact other (hrank.symm.trans (hinv.rank_eq r p (rank_pos hinv.suffixes hr hi) hr))
    rw [List.getElem?_set_ne other]
    exact h.filled.entries p before r k hr hk
  · intro r k hr hk
    have := harmless.shallow r k hr hk
    change commonPrefix (data.drop last) (data.drop j) - 1 ≤ _
    omega
  · rw [List.getElem?_set_ne (by omega)]
    exact h.first
  · intro same
    omega

/-- The array of a run that got through unharmed. -/
theorem Ahead.exact (h : Ahead data SA last data.length state) (hsa : IsSuffixArray data SA) :
    ExactLcp data SA state.2.dropLast := by
  have length := hsa.length_eq
  have hlength : state.2.length = SA.length := h.filled.length
  refine ⟨by rw [List.length_dropLast]; omega, fun r i k hr hk => ?_⟩
  have hlt := (List.getElem?_eq_some_iff.mp hk).1
  rw [List.getElem?_dropLast, if_pos (by omega)]
  obtain hi | hge := Nat.lt_or_ge i data.length
  · exact h.filled.entries i hi r k hr hk
  · -- Only the rank of the empty suffix is never visited.
    have hle := hsa.getElem_le (show r < SA.length by omega)
    have hr' := (List.getElem?_eq_some_iff.mp hr).2
    obtain rfl : i = data.length := by omega
    obtain rfl : r = 0 :=
      (List.getElem?_inj (by omega) hsa.nodup).mp (hr.trans hsa.getElem?_zero.symm)
    rw [List.drop_length]
    exact h.first

/-- The depth that a word leaves behind at `last`. -/
theorem Ahead.leave_last (h : Ahead data SA last last state) (hinv : Inverts data SA rank)
    (hi : last < data.length) (hlast : SA[data.length]? = some last) :
    Ensures (lcpStepBehind (some j) data SA ((List.range SA.length).map rank) last state)
      (fun state' => ¬ Overruns data last j ∧
        Beyond SA last (commonPrefix (data.drop last) (data.drop j) - 1) (last + 1) state') := by
  obtain ⟨carry, lcp⟩ := state
  obtain rfl : carry = 0 := h.fresh rfl
  have fits := hinv.fits
  rw [lcpStepBehind_last hinv.fits hinv.suffixes hi (hinv.rank_eq _ _ (by omega) hlast)]
  by_cases short : Overruns data last j
  · rw [equalFrom_overrun (by omega) short (by omega), error_bind]
    exact fun _ run => nomatch run
  · rw [equalFrom_inside (by omega) short (by omega), ok_bind, Nat.zero_add]
    refine Ensures.bind_any (fun lcp _ => Ensures.pure ⟨short, fun _ => ?_, fun further => ?_⟩)
    · change (if _ then _ else _) = _
      split <;> omega
    · omega

theorem Beyond.next {d : Nat} (h : Beyond SA last d i state) (hinv : Inverts data SA rank)
    (hi : i < data.length) (hlast : last < i) :
    Ensures (lcpStepBehind behind data SA ((List.range SA.length).map rank) i state)
      (Beyond SA last d (i + 1)) := by
  obtain ⟨hpos, hr⟩ := hinv.exists_rank hi
  refine (lcpStepBehind_stores (hinv.load hi) state).mono ?_
  rintro _ ⟨hlt, v, hv, rfl⟩
  refine ⟨fun same => by omega, fun _ r hnext => ?_⟩
  obtain rfl | hfurther := Nat.eq_or_lt_of_le (Nat.succ_le_of_lt hlast)
  · have same := hinv.rank_eq r _ (rank_pos hinv.suffixes hnext hi) hnext
    rw [Nat.succ_eq_add_one, same] at hlt ⊢
    exact ⟨v, List.getElem?_set_self hlt, (h.carried rfl).symm.trans_le hv⟩
  · obtain ⟨u, hu, hle⟩ := h.stored hfurther r hnext
    have other : rank i ≠ r := by
      intro same
      have := Option.some.inj (hr.symm.trans (same ▸ hnext))
      omega
    exact ⟨u, (List.getElem?_set_ne other).trans hu, hle⟩

/-- A run that returns got past `last`, and whatever it found there is still in the array. -/
theorem Beyond.of_run (hinv : Inverts data SA rank) (hi : last < data.length)
    (hlast : SA[data.length]? = some last) :
    Ensures (forUp idxBits 0 data.length
        (lcpStepBehind (some j) data SA ((List.range SA.length).map rank))
        (0, List.replicate SA.length 0))
      (fun state => ¬ Overruns data last j ∧
        Beyond SA last (commonPrefix (data.drop last) (data.drop j) - 1) data.length state) := by
  have length := hinv.suffixes.length_eq
  let inv (i : Nat) (state : Nat × List Nat) : Prop :=
    (i ≤ last → Ahead data SA last i state) ∧ (last < i → ¬ Overruns data last j ∧
      Beyond SA last (commonPrefix (data.drop last) (data.drop j) - 1) i state)
  have step : ∀ i state, 0 ≤ i → i < data.length → inv i state →
      Ensures (lcpStepBehind (some j) data SA ((List.range SA.length).map rank) i state)
        (inv (i + 1)) := by
    rintro i state - hlt ⟨ahead, beyond⟩
    obtain before | rfl | after := Nat.lt_trichotomy i last
    · obtain ⟨state', run, h⟩ := (ahead before.le).next hinv hlt hlast before.ne
      rw [run]
      exact Ensures.pure ⟨fun _ => h, fun hpast => absurd hpast (by omega)⟩
    · exact ((ahead le_rfl).leave_last hinv hi hlast).mono
        (fun _ h => ⟨fun hback => absurd hback (by omega), fun _ => h⟩)
    · exact ((beyond after).2.next hinv hlt after).mono
        (fun _ h => ⟨fun hback => absurd hback (by omega), fun _ => ⟨(beyond after).1, h⟩⟩)
  have init : inv 0 (0, List.replicate SA.length 0) :=
    ⟨fun _ => Ahead.start data SA last (by omega), fun hneg => absurd hneg (by omega)⟩
  exact (Ensures.forUp_indexed inv (Nat.zero_le _) init step).mono (fun _ h => h.2 hi)

end Run

/-- With the word `j` behind `SA`, `make_lcp` reads nothing else outside and returns the exact
array if and only if the word is harmless. -/
theorem makeLcpBehind_exact_iff (pos : 0 < data.length) (fits : data.length < 2 ^ 32 - 1)
    (hsa : IsSuffixArray data SA) (j : Nat) :
    (∃ lcp, makeLcpBehind (some j) data SA = .ok lcp ∧ ExactLcp data SA lcp) ↔
      ∀ last, SA[data.length]? = some last → Harmless data SA last j := by
  have small : data.length + 1 < 2 ^ idxBits := by
    simp only [idxBits]
    omega
  obtain ⟨rank, inverse, hrank⟩ := makeInverse_eq small hsa
  have hinv : Inverts data SA rank := ⟨hsa, small, hrank⟩
  have length := hsa.length_eq
  obtain ⟨last, hlast⟩ : ∃ last, SA[data.length]? = some last :=
    ⟨_, List.getElem?_eq_getElem (show data.length < SA.length by omega)⟩
  have hi := last_lt pos hsa hlast
  rw [makeLcpBehind, inverse, ok_bind]
  constructor
  · rintro ⟨lcp, run, exactly⟩ last' hlast'
    obtain rfl := Option.some.inj (hlast.symm.trans hlast')
    obtain ⟨state, loop, hlcp⟩ := bind_eq_ok.mp run
    obtain rfl := Except.ok.inj hlcp
    obtain ⟨inside, beyond⟩ := Beyond.of_run hinv hi hlast state loop
    refine ⟨inside, fun r k hr hk => ?_⟩
    obtain hend | hnext := Nat.eq_or_lt_of_le (Nat.succ_le_of_lt hi)
    · -- The greatest suffix is a single character.
      have := commonPrefix_le_length (data.drop last) (data.drop j)
      rw [List.length_drop] at this
      omega
    · obtain ⟨v, hv, hle⟩ := beyond.stored hnext r hr
      have entry := exactly.2 r (last + 1) k hr hk
      rw [List.getElem?_dropLast] at entry
      split at entry
      · have := Option.some.inj (hv.symm.trans entry)
        omega
      · exact nomatch entry
  · intro harmless
    obtain ⟨state, loop, h⟩ := forUp_ok (Ahead data SA last) (Nat.zero_le _)
      (show data.length < 2 ^ idxBits by omega) (Ahead.start data SA last (by omega))
      (fun i state _ hlt h => by
        obtain rfl | other := eq_or_ne i last
        · exact h.past_last hinv hi hlast (harmless i hlast)
        · exact h.next hinv hlt hlast other)
    exact ⟨_, by rw [loop, ok_bind, pure_eq_ok], h.exact hsa⟩

/-- On `ab` the word `0` leads to `ab` itself. -/
theorem makeLcpBehind_exact_iff_ab :
    (∃ lcp, makeLcpBehind (some 0) [97, 98] [2, 0, 1] = .ok lcp ∧
      ExactLcp [97, 98] [2, 0, 1] lcp) ↔
    ∀ last, [2, 0, 1][2]? = some last → Harmless [97, 98] [2, 0, 1] last 0 :=
  @makeLcpBehind_exact_iff [97, 98] [2, 0, 1] (by decide) (by decide) (by decide) 0

end SuffixArray.Lcp
