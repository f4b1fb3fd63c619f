import Mathlib.Data.Prod.Lex
import Mathlib.Order.Lattice
import SuffixArray.SuffixOrder

/-!
# LMS substrings and the order of suffixes

The LMS substring at `i` runs from `i` up to and including the next LMS position,
or to the end. It is compared by character and, on equal characters, L-type
before S-type. Two suffixes whose LMS substrings differ are ordered as these are.
The open block leaves the closing position out and forgets the types.
-/

namespace SuffixOrder

variable {α : Type} [LinearOrder α]

/-- The first LMS position from `i` on, or the end. -/
def lmsFrom (s : List α) (i : Nat) : Nat :=
  ((List.range' i (s.length - i)).find? (fun j => decide (IsLMS s j))).getD s.length

/-- The next LMS position after `i`, or the end. -/
def nextLMS (s : List α) (i : Nat) : Nat := lmsFrom s (i + 1)

/-- The characters from `i` up to the next LMS position, that position left out. -/
def block (s : List α) (i : Nat) : List α := (s.drop i).take (nextLMS s i - i)

section Positions

variable {s : List α} {i : Nat}

theorem lmsFrom_of_le (h : s.length ≤ i) : lmsFrom s i = s.length := by
  rw [lmsFrom, Nat.sub_eq_zero_of_le h]
  rfl

theorem range'_cons_of_lt {n : Nat} (h : i < n) :
    List.range' i (n - i) = i :: List.range' (i + 1) (n - (i + 1)) := by
  rw [show n - i = n - (i + 1) + 1 by omega, List.range'_succ]

theorem lmsFrom_of_isLMS (h : IsLMS s i) : lmsFrom s i = i := by
  rw [lmsFrom, range'_cons_of_lt h.2.1, List.find?_cons_of_pos (by simpa using h)]
  rfl

theorem lmsFrom_of_not_isLMS (hi : i < s.length) (h : ¬ IsLMS s i) :
    lmsFrom s i = lmsFrom s (i + 1) := by
  rw [lmsFrom, range'_cons_of_lt hi, List.find?_cons_of_neg (by simpa using h)]
  rfl

theorem lmsFrom_bounds (hi : i ≤ s.length) : i ≤ lmsFrom s i ∧ lmsFrom s i ≤ s.length := by
  induction hd : s.length - i generalizing i with
  | zero =>
      rw [lmsFrom_of_le (by omega)]
      exact ⟨hi, Nat.le_refl _⟩
  | succ d ih =>
      by_cases h : IsLMS s i
      · rw [lmsFrom_of_isLMS h]
        exact ⟨Nat.le_refl _, hi⟩
      · rw [lmsFrom_of_not_isLMS (by omega) h]
        have := ih (i := i + 1) (by omega) (by omega)
        exact ⟨by omega, this.2⟩

theorem nextLMS_bounds (hi : i < s.length) : i < nextLMS s i ∧ nextLMS s i ≤ s.length :=
  lmsFrom_bounds (Nat.succ_le_of_lt hi)

theorem lmsFrom_isLMS (h : lmsFrom s i < s.length) : IsLMS s (lmsFrom s i) := by
  rw [lmsFrom] at h ⊢
  cases hfind : (List.range' i (s.length - i)).find? (fun j => decide (IsLMS s j)) with
  | none =>
      rw [hfind] at h
      exact absurd h (Nat.lt_irrefl _)
  | some q =>
      exact of_decide_eq_true (List.find?_some (p := fun j => decide (IsLMS s j)) hfind)

/-- Between a position and the next LMS position there is no other. -/
theorem not_isLMS_of_lt_lmsFrom {j : Nat} (hi : i ≤ j) (hj : j < lmsFrom s i) : ¬ IsLMS s j := by
  intro h
  induction hd : j - i generalizing i with
  | zero =>
      obtain rfl : i = j := by omega
      rw [lmsFrom_of_isLMS h] at hj
      exact Nat.lt_irrefl _ hj
  | succ d ih =>
      have hlt : i < s.length := by
        have := h.2.1
        omega
      have hnot : ¬ IsLMS s i := by
        intro h'
        rw [lmsFrom_of_isLMS h'] at hj
        omega
      rw [lmsFrom_of_not_isLMS hlt hnot] at hj
      exact ih (i := i + 1) (by omega) hj (by omega)

/-- A suffix is its block followed by the suffix at the next LMS position. -/
theorem block_append (hi : i < s.length) : block s i ++ s.drop (nextLMS s i) = s.drop i := by
  have := (nextLMS_bounds hi).1
  have drop : s.drop (nextLMS s i) = (s.drop i).drop (nextLMS s i - i) := by
    rw [List.drop_drop]
    congr 1
    omega
  rw [block, drop, List.take_append_drop]

/-- Suffixes with the same block are ordered as the suffixes behind it. -/
theorem drop_lt_drop_iff_of_block {j : Nat} (hi : i < s.length) (hj : j < s.length)
    (same : block s i = block s j) :
    s.drop i < s.drop j ↔ s.drop (nextLMS s i) < s.drop (nextLMS s j) := by
  rw [← block_append hi, ← block_append hj, same, append_lt_append_iff]

end Positions

section Substrings

variable [Inhabited α]

/-- A position by its character and type, L before S. -/
def typed (s : List α) (i : Nat) : α ×ₗ Bool := toLex (chr s i, decide (IsS s i))

def typedString (s : List α) : List (α ×ₗ Bool) := (List.range s.length).map (typed s)

/-- From `i` up to and including the next LMS position, or to the end. -/
def lmsSubstring (s : List α) (i : Nat) : List (α ×ₗ Bool) :=
  ((typedString s).drop i).take (nextLMS s i + 1 - i)

/-- From `i` up to and including the first LMS position from `i` on, or to the end. -/
def typedTail (s : List α) (i : Nat) : List (α ×ₗ Bool) :=
  ((typedString s).drop i).take (lmsFrom s i + 1 - i)

variable {s : List α} {i j : Nat}

@[simp] theorem length_typedString : (typedString s).length = s.length := by
  simp [typedString]

theorem typedString_drop (hi : i < s.length) :
    (typedString s).drop i = typed s i :: (typedString s).drop (i + 1) := by
  rw [List.drop_eq_getElem_cons (by simpa using hi)]
  simp [typedString]

theorem typedTail_of_le (h : s.length ≤ i) : typedTail s i = [] := by
  rw [typedTail, List.drop_eq_nil_of_le (by simpa using h), List.take_nil]

theorem lmsSubstring_of_le (h : s.length ≤ i) : lmsSubstring s i = [] := by
  rw [lmsSubstring, List.drop_eq_nil_of_le (by simpa using h), List.take_nil]

theorem typedTail_of_isLMS (h : IsLMS s i) : typedTail s i = [typed s i] := by
  rw [typedTail, lmsFrom_of_isLMS h, Nat.add_sub_cancel_left, typedString_drop h.2.1,
    List.take_succ_cons, List.take_zero]

theorem lmsSubstring_eq (hi : i < s.length) :
    lmsSubstring s i = typed s i :: typedTail s (i + 1) := by
  have := (nextLMS_bounds hi).1
  rw [lmsSubstring, typedString_drop hi, show nextLMS s i + 1 - i = nextLMS s i - i + 1 by omega,
    List.take_succ_cons, typedTail, nextLMS]
  congr 2
  omega

theorem typedTail_of_not_isLMS (hi : i < s.length) (h : ¬ IsLMS s i) :
    typedTail s i = lmsSubstring s i := by
  rw [typedTail, lmsFrom_of_not_isLMS hi h]
  rfl

theorem typedTail_of_not_isS (h : ¬ IsS s i) : typedTail s i = lmsSubstring s i := by
  by_cases hi : i < s.length
  · exact typedTail_of_not_isLMS hi (fun lms => h lms.2.2.1)
  · rw [typedTail_of_le (Nat.le_of_not_lt hi), lmsSubstring_of_le (Nat.le_of_not_lt hi)]

theorem typedTail_eq_cons (hi : i < s.length) : ∃ rest, typedTail s i = typed s i :: rest := by
  by_cases h : IsLMS s i
  · exact ⟨[], typedTail_of_isLMS h⟩
  · exact ⟨_, (typedTail_of_not_isLMS hi h).trans (lmsSubstring_eq hi)⟩

theorem typed_lt_typed_iff : typed s i < typed s j ↔
    chr s i < chr s j ∨ chr s i = chr s j ∧ ¬ IsS s i ∧ IsS s j := by
  rw [typed, typed, Prod.Lex.toLex_lt_toLex]
  by_cases hi : IsS s i <;> by_cases hj : IsS s j <;> simp [hi, hj]

theorem typed_eq_typed_iff : typed s i = typed s j ↔
    chr s i = chr s j ∧ (IsS s i ↔ IsS s j) := by
  rw [typed, typed, toLex_inj, Prod.mk.injEq, decide_eq_decide]

theorem typed_lt_of_chr_lt (h : chr s i < chr s j) : typed s i < typed s j :=
  typed_lt_typed_iff.mpr (Or.inl h)

/-- Characters first, then types, decide about whole suffixes. -/
theorem drop_lt_of_typed_lt (hi : i < s.length) (hj : j < s.length)
    (h : typed s i < typed s j) : s.drop i < s.drop j := by
  obtain hlt | ⟨same, hl, hs⟩ := typed_lt_typed_iff.mp h
  · exact (drop_lt_drop_iff hi hj).mpr (Or.inl hlt)
  · exact lt_of_not_isS_of_isS hi hj same hl hs

/-- After equal types, a smaller tail means a smaller suffix. The types before rule
out that one tail stops at an LMS position and the other runs on. -/
theorem drop_lt_of_typedTail_lt (hi : i + 1 ≤ s.length) (hj : j + 1 ≤ s.length)
    (types : IsS s i ↔ IsS s j) (h : typedTail s (i + 1) < typedTail s (j + 1)) :
    s.drop (i + 1) < s.drop (j + 1) := by
  induction hd : s.length - i generalizing i j with
  | zero => omega
  | succ d ih =>
      by_cases hj' : j + 1 < s.length
      · by_cases hi' : i + 1 < s.length
        · have lmsIff : typed s (i + 1) = typed s (j + 1) →
              (IsLMS s (i + 1) ↔ IsLMS s (j + 1)) := by
            intro same
            have := (typed_eq_typed_iff.mp same).2
            simp only [IsLMS, hi', hj', this, types, Nat.add_sub_cancel, Nat.succ_pos]
          by_cases same : typed s (i + 1) = typed s (j + 1)
          · by_cases hlms : IsLMS s (i + 1)
            · rw [typedTail_of_isLMS hlms, typedTail_of_isLMS ((lmsIff same).mp hlms), same] at h
              exact absurd h (lt_irrefl _)
            · rw [typedTail_of_not_isLMS hi' hlms,
                typedTail_of_not_isLMS hj' (fun h' => hlms ((lmsIff same).mpr h')),
                lmsSubstring_eq hi', lmsSubstring_eq hj', List.cons_lt_cons_iff] at h
              obtain hlt | ⟨_, hrest⟩ := h
              · exact absurd same (ne_of_lt hlt)
              · refine (drop_lt_drop_iff hi' hj').mpr (Or.inr ⟨(typed_eq_typed_iff.mp same).1, ?_⟩)
                exact ih hi' hj' (typed_eq_typed_iff.mp same).2 hrest (by omega)
          · obtain ⟨rest, hrest⟩ := typedTail_eq_cons hi'
            obtain ⟨rest', hrest'⟩ := typedTail_eq_cons hj'
            rw [hrest, hrest', List.cons_lt_cons_iff] at h
            obtain hlt | ⟨heq, _⟩ := h
            · exact drop_lt_of_typed_lt hi' hj' hlt
            · exact absurd heq same
        · rw [show i + 1 = s.length by omega]
          exact drop_length_lt hj'
      · rw [typedTail_of_le (i := j + 1) (by omega)] at h
        exact absurd h (List.not_lt_nil _)

/-- Suffixes are ordered as their LMS substrings where these differ. -/
theorem drop_lt_of_lmsSubstring_lt (hi : i < s.length) (hj : j < s.length)
    (h : lmsSubstring s i < lmsSubstring s j) : s.drop i < s.drop j := by
  rw [lmsSubstring_eq hi, lmsSubstring_eq hj, List.cons_lt_cons_iff] at h
  obtain hlt | ⟨same, hrest⟩ := h
  · exact drop_lt_of_typed_lt hi hj hlt
  · obtain ⟨hchr, types⟩ := typed_eq_typed_iff.mp same
    exact (drop_lt_drop_iff hi hj).mpr (Or.inr ⟨hchr, drop_lt_of_typedTail_lt hi hj types hrest⟩)

theorem length_lmsSubstring (hi : i < s.length) :
    (lmsSubstring s i).length = min (nextLMS s i + 1) s.length - i := by
  have := nextLMS_bounds hi
  simp only [lmsSubstring, List.length_take, List.length_drop, length_typedString]
  omega

theorem getElem?_lmsSubstring {k : Nat} (hk : i + k < s.length) (hend : i + k ≤ nextLMS s i) :
    (lmsSubstring s i)[k]? = some (typed s (i + k)) := by
  have hlt : k < nextLMS s i + 1 - i := by omega
  rw [lmsSubstring, List.getElem?_take_of_lt hlt, List.getElem?_drop,
    List.getElem?_eq_getElem (by simpa using hk)]
  simp [typedString]

/-- Equal LMS substrings end at the same distance: one that reaches the end of the
string closes on an L-type position, any other on an S-type one. -/
theorem nextLMS_sub_eq_of_lmsSubstring_eq (hi : i < s.length) (hj : j < s.length)
    (h : lmsSubstring s i = lmsSubstring s j) : nextLMS s i - i = nextLMS s j - j := by
  have length := congrArg List.length h
  rw [length_lmsSubstring hi, length_lmsSubstring hj] at length
  have bi := nextLMS_bounds hi
  have bj := nextLMS_bounds hj
  have mixed : ∀ {a b : Nat}, a < s.length → b < s.length → lmsSubstring s a = lmsSubstring s b →
      min (nextLMS s a + 1) s.length - a = min (nextLMS s b + 1) s.length - b →
      nextLMS s a < s.length → nextLMS s b = s.length → False := by
    intro a b ha hb same hlen hlt heq
    have ba := nextLMS_bounds ha
    have closing := getElem?_lmsSubstring (s := s) (i := a) (k := nextLMS s a - a)
      (by omega) (by omega)
    have last := getElem?_lmsSubstring (s := s) (i := b) (k := nextLMS s a - a)
      (by omega) (by omega)
    rw [same, last, Option.some.injEq, typed_eq_typed_iff] at closing
    rw [show a + (nextLMS s a - a) = nextLMS s a by omega] at closing
    exact not_isS_last (by omega) (closing.2.mpr (lmsFrom_isLMS hlt).2.2.1)
  by_cases hi' : nextLMS s i < s.length
  · by_cases hj' : nextLMS s j < s.length
    · omega
    · exact (mixed hi hj h length hi' (by omega)).elim
  · by_cases hj' : nextLMS s j < s.length
    · exact (mixed hj hi h.symm length.symm hj' (by omega)).elim
    · omega

/-- The characters of an LMS substring without its closing position are its block. -/
theorem block_eq_of_lmsSubstring_eq (hi : i < s.length) (hj : j < s.length)
    (h : lmsSubstring s i = lmsSubstring s j) : block s i = block s j := by
  have distance := nextLMS_sub_eq_of_lmsSubstring_eq hi hj h
  have bi := nextLMS_bounds hi
  have bj := nextLMS_bounds hj
  apply List.ext_getElem?
  intro k
  by_cases hk : k < nextLMS s i - i
  · rw [block, block, List.getElem?_take_of_lt hk, List.getElem?_take_of_lt (by omega),
      List.getElem?_drop, List.getElem?_drop, getElem?_eq_chr (by omega),
      getElem?_eq_chr (by omega)]
    have left := getElem?_lmsSubstring (s := s) (i := i) (k := k) (by omega) (by omega)
    rw [h, getElem?_lmsSubstring (by omega) (by omega), Option.some.injEq] at left
    rw [(typed_eq_typed_iff.mp left).1]
  · rw [block, block, List.getElem?_eq_none (by simp; omega),
      List.getElem?_eq_none (by simp; omega)]

end Substrings

end SuffixOrder
