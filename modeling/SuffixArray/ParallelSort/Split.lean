import SuffixArray.ParallelSort

/-!
# One split of a range

The two cursors enclose what has not been compared with the key yet: nothing up to `i` is
greater than the key and nothing from `j` on is smaller. A round moves the cursors towards
each other and keeps that, so the place where they meet belongs to the key.
-/

namespace ParallelSort

open Checked

variable {α : Type} {comp : α → α → Bool} {array : List α}

theorem medianOfThree_ok (comp : α → α → Bool) {l m r : Nat} (hl : l < array.length)
    (hm : m < array.length) (hr : r < array.length) :
    ∃ k, medianOfThree comp array l m r = .ok k ∧ k < array.length := by
  rw [medianOfThree, load_of_lt hl, load_of_lt hm, load_of_lt hr, ok_bind, ok_bind, ok_bind]
  refine ⟨_, rfl, ?_⟩
  split_ifs <;> assumption

theorem pseudoMedianOfNine_ok (comp : α → α → Bool) (nonempty : 0 < array.length) :
    ∃ k, pseudoMedianOfNine comp array = .ok k ∧ k < array.length := by
  let offset := array.length / 8
  have far : offset * 7 < array.length := by omega
  obtain ⟨l, runL, hl⟩ : ∃ l, medianOfThree comp array 0 offset (offset * 2) = .ok l ∧
    l < array.length := medianOfThree_ok comp nonempty (by omega) (by omega)
  obtain ⟨m, runM, hm⟩ : ∃ m, medianOfThree comp array (offset * 3) (offset * 4) (offset * 5) =
    .ok m ∧ m < array.length := medianOfThree_ok comp (by omega) (by omega) (by omega)
  obtain ⟨r, runR, hr⟩ : ∃ r, medianOfThree comp array (offset * 6) (offset * 7)
    (array.length - 1) = .ok r ∧ r < array.length :=
    medianOfThree_ok comp (by omega) far (by omega)
  rw [pseudoMedianOfNine, sub_of_le nonempty, ok_bind]
  rw [runL, runM, runR, ok_bind, ok_bind, ok_bind]
  exact medianOfThree_ok comp hl hm hr

/-- `array'` is `array` with two elements exchanged. -/
structure Swapped (array : List α) (i j : Nat) (array' : List α) : Prop where
  perm : array'.Perm array
  first : array'[i]? = array[j]?
  second : array'[j]? = array[i]?
  other : ∀ k, k ≠ i → k ≠ j → array'[k]? = array[k]?

theorem iterSwap_ok {i j : Nat} (hi : i < array.length) (hj : j < array.length) :
    ∃ array', iterSwap array i j = .ok array' ∧ Swapped array i j array' := by
  have inside : j < (array.set i array[j]).length := by rwa [List.length_set]
  refine ⟨(array.set i array[j]).set j array[i], ?_, ?_⟩
  · rw [iterSwap, load_of_lt hi, load_of_lt hj, ok_bind, ok_bind, store_of_lt hi, ok_bind,
      store_of_lt inside]
  · refine ⟨List.set_set_perm hi hj, ?_, ?_, ?_⟩
    · obtain rfl | hij := eq_or_ne i j
      · rw [List.getElem?_set_self inside, List.getElem?_eq_getElem hi]
      · rw [List.getElem?_set_ne hij.symm, List.getElem?_set_self hi, List.getElem?_eq_getElem hj]
    · rw [List.getElem?_set_self inside, List.getElem?_eq_getElem hi]
    · intro k hki hkj
      rw [List.getElem?_set_ne hkj.symm, List.getElem?_set_ne hki.symm]

/-- What lies outside the cursors has been compared with the key. -/
structure Scanned (comp : α → α → Bool) (array : List α) (i j : Nat) (key : α) : Prop where
  atStart : array[0]? = some key
  order : i < j
  bound : j ≤ array.length
  low : ∀ k x, k ≤ i → array[k]? = some x → comp key x = false
  high : ∀ k x, j ≤ k → array[k]? = some x → comp x key = false

/-- The cursors have met at `j`. -/
structure Met (comp : α → α → Bool) (array : List α) (j : Nat) (key : α) : Prop where
  atStart : array[0]? = some key
  bound : j < array.length
  low : ∀ k x, k ≤ j → array[k]? = some x → comp key x = false
  high : ∀ k x, j < k → array[k]? = some x → comp x key = false

/-- The key has the place where they met. -/
structure Placed (comp : α → α → Bool) (array : List α) (j : Nat) (key : α) : Prop where
  at_j : array[j]? = some key
  low : ∀ k x, k < j → array[k]? = some x → comp key x = false
  high : ∀ k x, j < k → array[k]? = some x → comp x key = false

/-- Scanning down stops at the latest at an element that is not greater than the key. -/
theorem scanDown_ok {key x : α} {i j : Nat} (hkey : array[0]? = some key)
    (hi : array[i]? = some x) (stop : comp key x = false) (order : i < j)
    (bound : j ≤ array.length) :
    ∃ j' y, scanDown comp array j = .ok j' ∧ i ≤ j' ∧ j' < j ∧ array[j']? = some y ∧
      comp key y = false ∧
      ∀ k z, j' < k → k < j → array[k]? = some z → comp key z = true := by
  induction j with
  | zero => exact absurd order (Nat.not_lt_zero i)
  | succ j ih =>
      rw [scanDown, load_eq_ok.mpr hkey, ok_bind, load_of_lt bound, ok_bind]
      cases hj : comp key array[j] with
      | false =>
          refine ⟨j, array[j], rfl, Nat.le_of_lt_succ order, Nat.lt_succ_self j,
            List.getElem?_eq_getElem bound, hj, ?_⟩
          intro k z lower upper
          omega
      | true =>
          have below : i < j := by
            refine Nat.lt_of_le_of_ne (Nat.le_of_lt_succ order) ?_
            rintro rfl
            rw [List.getElem?_eq_getElem bound, Option.some.injEq] at hi
            rw [hi, stop] at hj
            contradiction
          obtain ⟨j', y, run, lower, upper, hy, hle, hbetween⟩ := ih below (by omega)
          refine ⟨j', y, run, lower, by omega, hy, hle, ?_⟩
          intro k z hlo hhi hz
          obtain rfl | hk := Nat.eq_or_lt_of_le (Nat.le_of_lt_succ hhi)
          · rw [List.getElem?_eq_getElem bound, Option.some.injEq] at hz
            rwa [← hz]
          · exact hbetween k z hlo hk hz

/-- Scanning up stops at the other cursor or at an element that is not smaller than the key. -/
theorem scanUp_ok (comp : α → α → Bool) {key : α} {i j : Nat} (fuel : Nat)
    (hkey : array[0]? = some key) (order : i ≤ j) (bound : j < array.length)
    (enough : j - i < fuel) :
    ∃ i', scanUp comp array j fuel i = .ok i' ∧ i ≤ i' ∧ i' ≤ j ∧
      (∀ k z, i < k → k < i' → array[k]? = some z → comp z key = true) ∧
      (i' = j ∨ i < i' ∧ ∃ y, array[i']? = some y ∧ comp y key = false) := by
  induction fuel generalizing i with
  | zero => omega
  | succ fuel ih =>
      rw [scanUp]
      by_cases met : i = j
      · refine ⟨i, if_pos met, Nat.le_refl i, order, ?_, Or.inl met⟩
        intro k z lower upper
        omega
      · have inside : i + 1 < array.length := by omega
        rw [if_neg met, load_of_lt inside, ok_bind, load_eq_ok.mpr hkey, ok_bind]
        cases hi : comp array[i + 1] key with
        | false =>
            refine ⟨i + 1, rfl, Nat.le_succ i, by omega, ?_, Or.inr ⟨Nat.lt_succ_self i, _,
              List.getElem?_eq_getElem inside, hi⟩⟩
            intro k z lower upper
            omega
        | true =>
            obtain ⟨i', run, lower, upper, hbetween, hend⟩ := ih (by omega : i + 1 ≤ j) (by omega)
            refine ⟨i', run, by omega, upper, ?_, ?_⟩
            · intro k z hlo hhi hz
              obtain rfl | hk := Nat.eq_or_lt_of_le (Nat.succ_le_of_lt hlo)
              · rw [List.getElem?_eq_getElem inside, Option.some.injEq] at hz
                rwa [← hz]
              · exact hbetween k z hk hhi hz
            · exact hend.imp_right (fun h => ⟨by omega, h.2⟩)

theorem scanned_start (order : StrictWeak comp) {key : α} (hkey : array[0]? = some key) :
    Scanned comp array 0 array.length key where
  atStart := hkey
  order := (List.getElem?_eq_some_iff.mp hkey).1
  bound := Nat.le_refl _
  low k x hk hx := by
    obtain rfl := Nat.le_zero.mp hk
    rw [hkey, Option.some.injEq] at hx
    exact hx ▸ order.irrefl key
  high k x hk hx := by
    rw [List.getElem?_eq_none hk] at hx
    contradiction

/-- Exchanging two elements on the wrong sides brings both cursors onto their places. -/
theorem Swapped.scanned {array' : List α} {key : α} {i j : Nat} (h : Swapped array i j array')
    (hkey : array[0]? = some key) (hi : 0 < i) (order : i < j) (bound : j < array.length)
    (low : ∀ k x, k < i → array[k]? = some x → comp key x = false)
    (high : ∀ k x, j < k → array[k]? = some x → comp x key = false)
    (atI : ∀ x, array[i]? = some x → comp x key = false)
    (atJ : ∀ x, array[j]? = some x → comp key x = false) :
    Scanned comp array' i j key where
  atStart := by rw [h.other 0 hi.ne (by omega), hkey]
  order := order
  bound := by rw [h.perm.length_eq]; omega
  low k x hk hx := by
    obtain rfl | hk := Nat.eq_or_lt_of_le hk
    · exact atJ x (h.first ▸ hx)
    · exact low k x hk (h.other k (by omega) (by omega) ▸ hx)
  high k x hk hx := by
    obtain rfl | hk := Nat.eq_or_lt_of_le hk
    · exact atI x (h.second ▸ hx)
    · exact high k x hk (h.other k (by omega) (by omega) ▸ hx)

/-- One round brings the cursors together or leaves them closer to each other. -/
theorem round_ok (order : StrictWeak comp) {key : α} {i j : Nat}
    (h : Scanned comp array i j key) :
    ∃ array' i' j', round comp array i j = .ok (array', i', j') ∧ array'.Perm array ∧ j' < j ∧
      (i' = j' ∧ Met comp array' j' key ∨ Scanned comp array' i' j' key) := by
  have inside : i < array.length := by have := h.bound; have := h.order; omega
  obtain ⟨j', y, runJ, lowerJ, upperJ, hy, hle, between⟩ :=
    scanDown_ok h.atStart (List.getElem?_eq_getElem inside)
      (h.low i _ (Nat.le_refl i) (List.getElem?_eq_getElem inside)) h.order h.bound
  have boundJ : j' < array.length := (List.getElem?_eq_some_iff.mp hy).1
  obtain ⟨i', runI, lowerI, upperI, smaller, hend⟩ :=
    scanUp_ok comp (array.length + 1) h.atStart lowerJ boundJ (by omega)
  have low : ∀ k x, k < i' → array[k]? = some x → comp key x = false := by
    intro k x hk hx
    obtain hki | hki := Nat.lt_or_ge i k
    · exact order.asymm (smaller k x hki hk hx)
    · exact h.low k x hki hx
  have high : ∀ k x, j' < k → array[k]? = some x → comp x key = false := by
    intro k x hk hx
    obtain hkj | hkj := Nat.lt_or_ge k j
    · exact order.asymm (between k x hk hkj hx)
    · exact h.high k x hkj hx
  have atJ : ∀ x, array[j']? = some x → comp key x = false := by
    intro x hx
    rw [hy, Option.some.injEq] at hx
    rwa [← hx]
  rw [round, runJ, ok_bind, runI, ok_bind]
  by_cases met : i' = j'
  · refine ⟨array, i', j', if_pos met, List.Perm.refl _, upperJ, Or.inl ⟨met, ?_⟩⟩
    refine ⟨h.atStart, boundJ, fun k x hk hx => ?_, high⟩
    obtain rfl | hk := Nat.eq_or_lt_of_le hk
    · exact atJ x hx
    · exact low k x (met ▸ hk) hx
  · obtain ⟨hi, z, hz, hgt⟩ := hend.resolve_left met
    have boundI : i' < array.length := (List.getElem?_eq_some_iff.mp hz).1
    obtain ⟨array', swap, swapped⟩ := iterSwap_ok boundI boundJ
    refine ⟨array', i', j', ?_, swapped.perm, upperJ, Or.inr ?_⟩
    · rw [if_neg met, swap, ok_bind, pure_eq_ok]
    · refine swapped.scanned h.atStart (by omega) (by omega) boundJ low high (fun x hx => ?_) atJ
      rw [hz, Option.some.injEq] at hx
      rwa [← hx]

theorem rounds_ok (order : StrictWeak comp) {key : α} {i j fuel : Nat}
    (h : Scanned comp array i j key) (enough : j ≤ fuel) :
    ∃ array' j', rounds comp fuel array i j = .ok (array', j') ∧ array'.Perm array ∧
      Met comp array' j' key := by
  induction fuel generalizing array i j with
  | zero => exact absurd h.order (by omega)
  | succ fuel ih =>
      obtain ⟨middle, i', j', first, perm, closer, ⟨rfl, met⟩ | scanned⟩ := round_ok order h
      · refine ⟨middle, i', ?_, perm, met⟩
        rw [rounds, first, ok_bind]
        exact if_pos rfl
      · obtain ⟨array', m, rest, perm', met⟩ := ih scanned (by omega)
        refine ⟨array', m, ?_, perm'.trans perm, met⟩
        rw [rounds, first, ok_bind]
        exact (if_neg scanned.order.ne).trans rest

/-- The exchange behind `partition`. -/
theorem Met.place {key : α} {j : Nat} (h : Met comp array j key) :
    ∃ array', iterSwap array j 0 = .ok array' ∧ array'.Perm array ∧
      Placed comp array' j key := by
  have start := (List.getElem?_eq_some_iff.mp h.atStart).1
  obtain ⟨array', run, swapped⟩ := iterSwap_ok h.bound start
  refine ⟨array', run, swapped.perm, swapped.first.trans h.atStart, ?_, ?_⟩
  · intro k x hk hx
    obtain rfl | zero := eq_or_ne k 0
    · exact h.low j x (Nat.le_refl j) (swapped.second ▸ hx)
    · exact h.low k x hk.le (swapped.other k hk.ne zero ▸ hx)
  · intro k x hk hx
    exact h.high k x hk (swapped.other k hk.ne' (by omega) ▸ hx)

theorem chooseKey_ok (comp : α → α → Bool) (nonempty : 0 < array.length) :
    ∃ array', chooseKey comp array = .ok array' ∧ array'.Perm array := by
  obtain ⟨m, run, inside⟩ := pseudoMedianOfNine_ok comp nonempty
  rw [chooseKey, run, ok_bind]
  by_cases zero : m = 0
  · exact ⟨array, if_neg (not_not_intro zero), List.Perm.refl _⟩
  · obtain ⟨array', swap, swapped⟩ := iterSwap_ok nonempty inside
    exact ⟨array', (if_pos zero).trans swap, swapped.perm⟩

/-- A split returns, permutes its range and leaves the key between the two parts. -/
theorem splitRange_ok (order : StrictWeak comp) (nonempty : 0 < array.length) :
    ∃ array' j key, splitRange comp array = .ok (array', j, array.length - (j + 1)) ∧
      j < array.length ∧ array'.Perm array ∧ Placed comp array' j key := by
  obtain ⟨chosen, choose, perm⟩ := chooseKey_ok comp nonempty
  have start : 0 < chosen.length := perm.length_eq ▸ nonempty
  obtain ⟨scanned, j, run, perm', met⟩ := rounds_ok order
    (scanned_start order (List.getElem?_eq_getElem start)) (Nat.le_refl _)
  obtain ⟨array', swap, perm'', placed⟩ := met.place
  have all := perm''.trans (perm'.trans perm)
  have bound : j < array.length := by
    have := met.bound
    rwa [(perm'.trans perm).length_eq] at this
  refine ⟨array', j, _, ?_, bound, all, placed⟩
  rw [splitRange, choose, ok_bind, run, ok_bind, swap, ok_bind, all.length_eq, sub_of_le bound,
    ok_bind, pure_eq_ok]

theorem splitRange_ok_unordered :
    ∃ array' j key, splitRange (fun a b : Nat => decide (a < b)) [2, 3, 1] =
        .ok (array', j, 3 - (j + 1)) ∧
      j < 3 ∧ array'.Perm [2, 3, 1] ∧ Placed (fun a b : Nat => decide (a < b)) array' j key :=
  splitRange_ok strictWeak_lt (by decide)

end ParallelSort
