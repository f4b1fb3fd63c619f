import SuffixArray.Checked
import Mathlib.Data.Nat.Log

/-!
# Lower bound by bisection

The loop of `std::lower_bound` over a vector and a predicate. On a vector that is
partitioned by the predicate it returns the partition point, in as many iterations
as the window is long. `meet` is the halving alone, over indices that each lie in
front of what is looked for, on it or behind it.
-/

namespace Bisection

open Checked

variable {α : Type}

/-- The window is `count` elements from `first` on. -/
def lowerBoundFrom (less : α → Bool) (xs : List α) : (fuel first count : Nat) → Run Nat
  | _, first, 0 => return first
  | 0, _, _ + 1 => .error .exhausted
  | fuel + 1, first, count + 1 => do
    let step := (count + 1) / 2
    let x ← load xs (first + step)
    if less x then lowerBoundFrom less xs fuel (first + step + 1) (count + 1 - (step + 1))
    else lowerBoundFrom less xs fuel first step

def lowerBound (less : α → Bool) (xs : List α) : Run Nat :=
  lowerBoundFrom less xs xs.length 0 xs.length

/-- `less` holds exactly in front of `k`. -/
structure Partitioned (less : α → Bool) (xs : List α) (k : Nat) : Prop where
  le_length : k ≤ xs.length
  less_iff : ∀ i x, xs[i]? = some x → (less x = true ↔ i < k)

variable {less : α → Bool} {xs : List α} {k : Nat}

/-- What lies outside the window does not matter. -/
theorem lowerBoundFrom_window {fuel first count : Nat} (enough : count ≤ fuel) (lower : first ≤ k)
    (upper : k ≤ first + count) (inside : first + count ≤ xs.length)
    (split : ∀ i x, i < first + count → xs[i]? = some x → (less x = true ↔ i < k)) :
    lowerBoundFrom less xs fuel first count = .ok k := by
  induction fuel generalizing first count with
  | zero =>
      obtain rfl : count = 0 := by omega
      obtain rfl : first = k := by omega
      rw [lowerBoundFrom, pure_eq_ok]
  | succ fuel ih =>
      cases count with
      | zero =>
          obtain rfl : first = k := by omega
          rw [lowerBoundFrom, pure_eq_ok]
      | succ count =>
          have hlt : first + (count + 1) / 2 < xs.length := by omega
          have side := split _ _ (by omega) (List.getElem?_eq_getElem hlt)
          rw [lowerBoundFrom, load_of_lt hlt, ok_bind]
          by_cases hless : less xs[first + (count + 1) / 2] = true
          · have := side.mp hless
            rw [if_pos hless]
            exact ih (by omega) (by omega) (by omega) (by omega)
              (fun i x hi => split i x (by omega))
          · have := side.not.mp hless
            rw [if_neg hless]
            exact ih (by omega) (by omega) (by omega) (by omega)
              (fun i x hi => split i x (by omega))

theorem lowerBoundFrom_eq (h : Partitioned less xs k) {fuel first count : Nat}
    (enough : count ≤ fuel) (lower : first ≤ k) (upper : k ≤ first + count)
    (inside : first + count ≤ xs.length) : lowerBoundFrom less xs fuel first count = .ok k :=
  lowerBoundFrom_window enough lower upper inside (fun i x _ => h.less_iff i x)

theorem lowerBound_eq (h : Partitioned less xs k) : lowerBound less xs = .ok k := by
  have := h.le_length
  apply lowerBoundFrom_eq h <;> omega

/-- Whatever the predicate and the vector, the loop ends in its window. -/
theorem lowerBoundFrom_inside (less : α → Bool) {fuel first count : Nat} (enough : count ≤ fuel)
    (inside : first + count ≤ xs.length) :
    ∃ k, lowerBoundFrom less xs fuel first count = .ok k ∧ k ≤ first + count := by
  induction fuel generalizing first count with
  | zero =>
      obtain rfl : count = 0 := Nat.le_zero.mp enough
      exact ⟨first, by rw [lowerBoundFrom, pure_eq_ok], Nat.le_refl _⟩
  | succ fuel ih =>
      cases count with
      | zero => exact ⟨first, by rw [lowerBoundFrom, pure_eq_ok], Nat.le_refl _⟩
      | succ count =>
          have hlt : first + (count + 1) / 2 < xs.length := by omega
          rw [lowerBoundFrom, load_of_lt hlt, ok_bind]
          by_cases hless : less xs[first + (count + 1) / 2] = true
          · obtain ⟨k, run, upper⟩ := @ih (first + (count + 1) / 2 + 1)
              (count + 1 - ((count + 1) / 2 + 1)) (by omega) (by omega)
            exact ⟨k, by rw [if_pos hless, run], by omega⟩
          · obtain ⟨k, run, upper⟩ := @ih first ((count + 1) / 2) (by omega) (by omega)
            exact ⟨k, by rw [if_neg hless, run], by omega⟩

theorem lowerBound_inside (less : α → Bool) (xs : List α) :
    ∃ k, lowerBound less xs = .ok k ∧ k ≤ xs.length := by
  obtain ⟨k, run, upper⟩ := lowerBoundFrom_inside less (Nat.le_refl xs.length)
    (Nat.le_of_eq (Nat.zero_add xs.length))
  exact ⟨k, run, Nat.zero_add xs.length ▸ upper⟩

/-- Where `less` is never regained once lost, there is a partition point. -/
theorem exists_partitioned (falling : ∀ (i j : Nat) x y, i ≤ j → xs[i]? = some x →
    xs[j]? = some y → less y = true → less x = true) : ∃ k, Partitioned less xs k := by
  refine ⟨xs.findIdx (fun x => !less x), List.findIdx_le_length, fun i x hi => ?_⟩
  obtain ⟨hlt, rfl⟩ := List.getElem?_eq_some_iff.mp hi
  constructor
  · intro hless
    by_contra hge
    have hk : xs.findIdx (fun x => !less x) < xs.length := by omega
    have stop := List.findIdx_getElem (p := fun x => !less x) (w := hk)
    have := falling _ i _ _ (Nat.le_of_not_lt hge) (List.getElem?_eq_getElem hk) hi hless
    rw [this] at stop
    exact absurd stop (by decide)
  · intro hk
    simpa using List.not_of_lt_findIdx hk

section Append

variable {y : α}

/-- The binary representation begins with two ones. -/
def LeadingOnes (n : Nat) : Prop := 3 * 2 ^ (Nat.log 2 n - 1) ≤ n

instance : DecidablePred LeadingOnes := fun n =>
  inferInstanceAs (Decidable (3 * 2 ^ (Nat.log 2 n - 1) ≤ n))

theorem leadingOnes_half {n : Nat} (h : 4 ≤ n) : LeadingOnes (n / 2) ↔ LeadingOnes n := by
  obtain ⟨d, hd⟩ : ∃ d, Nat.log 2 n = d + 2 :=
    Nat.exists_eq_add_of_le' ((Nat.le_log_iff_pow_le Nat.one_lt_two (by omega)).mpr h)
  have whole : 3 * 2 ^ (d + 1) = 3 * 2 ^ d * 2 := by rw [Nat.pow_succ, Nat.mul_assoc]
  rw [LeadingOnes, LeadingOnes, Nat.log_div_base, hd]
  simp only [Nat.add_sub_cancel, Nat.add_sub_assoc, Nat.reduceSub, Nat.reduceLeDiff]
  rw [whole, Nat.le_div_iff_mul_le Nat.two_pos]

/-- One more element behind a partitioned vector keeps the vector partitioned unless it
belongs in front of elements that are there. -/
theorem Partitioned.append (h : Partitioned less xs k) (last : less y = true → k = xs.length) :
    Partitioned less (xs ++ [y]) (if less y then k + 1 else k) where
  le_length := by
    have := h.le_length
    rw [List.length_append, List.length_singleton]
    split <;> omega
  less_iff i x hi := by
    have bound := h.le_length
    obtain hlt | hge := Nat.lt_or_ge i xs.length
    · rw [List.getElem?_append_left hlt] at hi
      rw [h.less_iff i x hi]
      split
      · next hy => exact iff_of_true (last hy ▸ hlt) (by have := last hy; omega)
      · rfl
    · obtain rfl : i = xs.length := by
        have := (List.getElem?_eq_some_iff.mp hi).1
        rw [List.length_append, List.length_singleton] at this
        omega
      obtain rfl : y = x := by simpa using hi
      split
      · next hy => exact iff_of_true hy (by have := last hy; omega)
      · next hy => exact iff_of_false hy (by omega)

/-- A last element that belongs further in front is run over if the bisection comes to it
before it comes to the partition point. -/
theorem lowerBoundFrom_append (h : Partitioned less xs k) (hy : less y = true)
    (hk : k < xs.length) {fuel first count : Nat} (enough : count ≤ fuel) (lower : first ≤ k)
    (whole : first + count = xs.length + 1) :
    lowerBoundFrom less (xs ++ [y]) fuel first count =
      .ok (if k + 1 = xs.length ∧ LeadingOnes (count + 1) then xs.length + 1 else k) := by
  induction fuel generalizing first count with
  | zero => omega
  | succ fuel ih =>
      obtain ⟨c, rfl⟩ : ∃ c, count = c + 1 := Nat.exists_eq_succ_of_ne_zero (by omega)
      rw [lowerBoundFrom]
      obtain hinner | hend := Nat.lt_or_ge (first + (c + 1) / 2) xs.length
      · have side := h.less_iff _ _ (List.getElem?_eq_getElem hinner)
        rw [load_eq_ok.mpr ((List.getElem?_append_left hinner).trans
          (List.getElem?_eq_getElem hinner)), ok_bind]
        by_cases hless : less xs[first + (c + 1) / 2] = true
        · have front := side.mp hless
          rw [if_pos hless, ih (by omega) (by omega) (by omega),
            show c + 1 - ((c + 1) / 2 + 1) + 1 = (c + 1 + 1) / 2 by omega]
          exact congrArg Except.ok
            (if_congr (and_congr_right' (leadingOnes_half (by omega))) rfl rfl)
        · -- The bisection came to the partition point first.
          have back := side.not.mp hless
          have found := @lowerBoundFrom_window _ less (xs ++ [y]) k fuel first ((c + 1) / 2)
            (by omega) lower (by omega) (by rw [List.length_append]; omega) (fun i x hi hx =>
              h.less_iff i x ((List.getElem?_append_left (by omega)).symm.trans hx))
          rw [if_neg hless, found, if_neg]
          rintro ⟨hlast, ones⟩
          obtain rfl | rfl : c = 2 ∨ c = 3 := by omega
          · exact absurd ones (by decide)
          · exact absurd ones (by decide)
      · obtain rfl : c = 1 := by omega
        have last : first + (1 + 1) / 2 = xs.length := by omega
        have loaded : (xs ++ [y])[first + (1 + 1) / 2]? = some y := by
          rw [last, List.getElem?_concat_length]
        rw [load_eq_ok.mpr loaded, ok_bind, if_pos hy, if_pos ⟨by omega, by decide⟩, last]
        exact lowerBoundFrom.eq_1 _ _ _ _

theorem lowerBound_append (h : Partitioned less xs k) (y : α) : lowerBound less (xs ++ [y]) =
    .ok (if less y = true ∧ (k = xs.length ∨ k + 1 = xs.length ∧ LeadingOnes (xs.length + 2))
      then xs.length + 1 else k) := by
  have bound := h.le_length
  by_cases hy : less y = true
  · obtain rfl | hk := Nat.eq_or_lt_of_le bound
    · rw [if_pos ⟨hy, Or.inl rfl⟩, lowerBound_eq (h.append fun _ => rfl), if_pos hy]
    · rw [lowerBound, List.length_append, List.length_singleton,
        lowerBoundFrom_append h hy hk (Nat.le_refl _) (Nat.zero_le _) (Nat.zero_add _)]
      refine congrArg Except.ok (if_congr ?_ rfl rfl)
      rw [and_iff_right hy, or_iff_right (Nat.ne_of_lt hk)]
  · rw [if_neg (fun both => hy both.1), lowerBound_eq (h.append fun less => absurd less hy),
      if_neg hy]

end Append

/-- The first index that halving the window meets. -/
def meet (side : Nat → Ordering) (first count : Nat) : Option Nat :=
  if count = 0 then none
  else
    match side (first + count / 2) with
    | .lt => meet side (first + count / 2 + 1) (count - (count / 2 + 1))
    | .eq => some (first + count / 2)
    | .gt => meet side first (count / 2)
termination_by count

section Meet

variable {side : Nat → Ordering} {first count : Nat}

theorem meet_zero (side : Nat → Ordering) (first : Nat) : meet side first 0 = none := by
  rw [meet, if_pos rfl]

theorem meet_of_lt (hcount : count ≠ 0) (h : side (first + count / 2) = .lt) :
    meet side first count = meet side (first + count / 2 + 1) (count - (count / 2 + 1)) := by
  rw [meet, if_neg hcount, h]

theorem meet_of_eq (hcount : count ≠ 0) (h : side (first + count / 2) = .eq) :
    meet side first count = some (first + count / 2) := by
  rw [meet, if_neg hcount, h]

theorem meet_of_gt (hcount : count ≠ 0) (h : side (first + count / 2) = .gt) :
    meet side first count = meet side first (count / 2) := by
  rw [meet, if_neg hcount, h]

end Meet

end Bisection
