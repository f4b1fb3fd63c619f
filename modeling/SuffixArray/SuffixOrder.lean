import Mathlib.Data.List.GetD
import Mathlib.Data.List.Lex
import Mathlib.Data.List.Nodup
import Mathlib.Data.List.Perm.Basic
import Mathlib.Data.List.Range
import Mathlib.Data.List.Sort
import Mathlib.Data.Finset.Card

/-!
# Suffixes of a string in lexicographic order

The suffix of `s` at `i` is `s.drop i`, ordered by the lexicographic order of
lists, so that the empty suffix at `s.length` is the smallest. A position is
S-type when its suffix precedes the next one and L-type otherwise; the local
recurrences on neighbouring characters are consequences of that order, not
definitions. A suffix array lists all positions by increasing suffix.
-/

namespace SuffixOrder

variable {α : Type}

section Characters

variable [Inhabited α]

/-- The character at a position, with a default past the end. -/
def chr (s : List α) (i : Nat) : α := s.getD i default

theorem chr_eq_getElem {s : List α} {i : Nat} (h : i < s.length) : chr s i = s[i] :=
  List.getD_eq_getElem s default h

theorem getElem?_eq_chr {s : List α} {i : Nat} (h : i < s.length) : s[i]? = some (chr s i) := by
  rw [chr_eq_getElem h, List.getElem?_eq_getElem h]

theorem chr_mem {s : List α} {i : Nat} (h : i < s.length) : chr s i ∈ s := by
  rw [chr_eq_getElem h]
  exact List.getElem_mem h

theorem drop_eq_chr_cons {s : List α} {i : Nat} (h : i < s.length) :
    s.drop i = chr s i :: s.drop (i + 1) := by
  rw [chr_eq_getElem h, List.drop_eq_getElem_cons h]

/-- A string lists its characters. -/
theorem map_chr_range (s : List α) : (List.range s.length).map (chr s) = s := by
  apply List.ext_getElem (by simp)
  intro i hi hi'
  rw [List.getElem_map, List.getElem_range, chr_eq_getElem hi']

end Characters

/-- Two suffixes are equal only at the same position, since their lengths differ. -/
theorem drop_injOn {s : List α} {i j : Nat} (hi : i ≤ s.length) (hj : j ≤ s.length)
    (h : s.drop i = s.drop j) : i = j := by
  have lengths := congrArg List.length h
  simp only [List.length_drop] at lengths
  omega

variable [LinearOrder α]

section Comparison

variable [Inhabited α]

theorem drop_lt_drop_iff {s : List α} {i j : Nat} (hi : i < s.length) (hj : j < s.length) :
    s.drop i < s.drop j ↔
      chr s i < chr s j ∨ chr s i = chr s j ∧ s.drop (i + 1) < s.drop (j + 1) := by
  rw [drop_eq_chr_cons hi, drop_eq_chr_cons hj, List.cons_lt_cons_iff]

theorem drop_length_lt {s : List α} {i : Nat} (h : i < s.length) :
    s.drop s.length < s.drop i := by
  rw [List.drop_length, drop_eq_chr_cons h]
  exact List.nil_lt_cons _ _

end Comparison

theorem append_lt_append_iff (l a b : List α) : l ++ a < l ++ b ↔ a < b := by
  induction l with
  | nil => rfl
  | cons x l ih =>
      rw [List.cons_append, List.cons_append, List.cons_lt_cons_iff, ih]
      simp only [lt_irrefl, true_and, false_or]

theorem not_lt_drop_length {s : List α} (l : List α) : ¬ l < s.drop s.length := by
  rw [List.drop_length]
  exact List.not_lt_nil l

/-- S-type positions, the empty suffix counted among them. -/
def IsS (s : List α) (i : Nat) : Prop := i = s.length ∨ s.drop i < s.drop (i + 1)

instance (s : List α) : DecidablePred (IsS s) := fun i =>
  inferInstanceAs (Decidable (i = s.length ∨ s.drop i < s.drop (i + 1)))

/-- Leftmost S-type positions: S-type ones right after an L-type one. -/
def IsLMS (s : List α) (i : Nat) : Prop := 0 < i ∧ i < s.length ∧ IsS s i ∧ ¬ IsS s (i - 1)

instance (s : List α) : DecidablePred (IsLMS s) := fun i =>
  inferInstanceAs (Decidable (0 < i ∧ i < s.length ∧ IsS s i ∧ ¬ IsS s (i - 1)))

theorem isS_length (s : List α) : IsS s s.length := Or.inl rfl

theorem isS_iff_lt {s : List α} {i : Nat} (h : i < s.length) :
    IsS s i ↔ s.drop i < s.drop (i + 1) := by
  constructor
  · rintro (rfl | hlt)
    · exact absurd h (Nat.lt_irrefl _)
    · exact hlt
  · exact Or.inr

theorem not_isS_iff_lt {s : List α} {i : Nat} (h : i < s.length) :
    ¬ IsS s i ↔ s.drop (i + 1) < s.drop i := by
  rw [isS_iff_lt h, not_lt]
  constructor
  · intro hle
    refine lt_of_le_of_ne hle (fun same => ?_)
    have := drop_injOn (by omega) (by omega) same
    omega
  · exact le_of_lt

theorem IsLMS.not_succ {s : List α} {i : Nat} (h : IsS s i) : ¬ IsLMS s (i + 1) :=
  fun lms => lms.2.2.2 h

section Types

variable [Inhabited α] {s : List α}

theorem not_isS_last {i : Nat} (h : i + 1 = s.length) : ¬ IsS s i := by
  rw [not_isS_iff_lt (by omega), h]
  exact drop_length_lt (by omega)

/-- The right-to-left recurrence that labels the positions. -/
theorem isS_iff {i : Nat} (h : i + 1 < s.length) :
    IsS s i ↔ chr s i < chr s (i + 1) ∨ chr s i = chr s (i + 1) ∧ IsS s (i + 1) := by
  rw [isS_iff_lt (by omega), isS_iff_lt h, drop_lt_drop_iff (by omega) h]

theorem IsS.succ_lt {i : Nat} (h : IsS s i) (hi : i < s.length) : i + 1 < s.length := by
  by_contra hlast
  exact not_isS_last (by omega) h

theorem IsS.chr_le {i : Nat} (h : IsS s i) (hi : i < s.length) : chr s i ≤ chr s (i + 1) := by
  obtain hlt | ⟨same, _⟩ := (isS_iff (h.succ_lt hi)).mp h
  · exact le_of_lt hlt
  · exact le_of_eq same

theorem chr_le_of_not_isS {i : Nat} (h : ¬ IsS s i) (hi : i + 1 < s.length) :
    chr s (i + 1) ≤ chr s i := by
  by_contra hlt
  exact h ((isS_iff hi).mpr (Or.inl (not_le.mp hlt)))

theorem isS_succ_iff {i : Nat} (hi : i + 1 < s.length) (same : chr s i = chr s (i + 1)) :
    IsS s (i + 1) ↔ IsS s i := by
  rw [isS_iff hi, same]
  simp only [lt_irrefl, true_and, false_or]

/-- Among suffixes with one first character the L-type ones come first. The
induction follows the common run of that character. -/
theorem lt_of_not_isS_of_isS {i j : Nat} (hi : i < s.length) (hj : j < s.length)
    (same : chr s i = chr s j) (hl : ¬ IsS s i) (hs : IsS s j) : s.drop i < s.drop j := by
  induction hd : s.length - i generalizing i j with
  | zero => omega
  | succ d ih =>
      rw [drop_lt_drop_iff hi hj]
      refine Or.inr ⟨same, ?_⟩
      have hj' := hs.succ_lt hj
      by_cases hi' : i + 1 < s.length
      · rw [drop_lt_drop_iff hi' hj']
        have below := chr_le_of_not_isS hl hi'
        have above := hs.chr_le hj
        obtain hlt | heq := lt_or_eq_of_le (below.trans (same.le.trans above))
        · exact Or.inl hlt
        · have left : chr s i = chr s (i + 1) :=
            le_antisymm (same.le.trans (above.trans heq.ge)) below
          have right : chr s j = chr s (j + 1) := same.symm.trans (left.trans heq)
          have := ih hi' hj' heq ((isS_succ_iff hi' left).not.mpr hl)
            ((isS_succ_iff hj' right).mpr hs) (by omega)
          exact (drop_lt_drop_iff hi' hj').mp this
      · rw [show i + 1 = s.length by omega]
        exact drop_length_lt hj'

/-- The character of the LMS position that ends an L-run is strictly smaller. -/
theorem IsLMS.chr_lt {i : Nat} (h : IsLMS s (i + 1)) : chr s (i + 1) < chr s i := by
  obtain ⟨_, hlen, hs, hl⟩ := h
  rw [Nat.add_sub_cancel] at hl
  obtain hlt | heq := lt_or_eq_of_le (chr_le_of_not_isS hl hlen)
  · exact hlt
  · exact absurd ((isS_succ_iff hlen heq.symm).mp hs) hl

end Types

/-- All positions of `s`, the empty suffix included, by increasing suffix. -/
structure IsSuffixArray (s : List α) (sa : List Nat) : Prop where
  perm : sa.Perm (List.range (s.length + 1))
  sorted : sa.Pairwise (fun i j => s.drop i < s.drop j)

instance (s : List α) (sa : List Nat) : Decidable (IsSuffixArray s sa) :=
  decidable_of_iff (sa.Perm (List.range (s.length + 1)) ∧
      sa.Pairwise (fun i j => s.drop i < s.drop j))
    ⟨fun h => ⟨h.1, h.2⟩, fun h => ⟨h.perm, h.sorted⟩⟩

namespace IsSuffixArray

variable {s : List α} {sa : List Nat}

/-- A strictly sorted list of the right length leaves no position out. -/
theorem of_sorted (length : sa.length = s.length + 1) (le : ∀ i ∈ sa, i ≤ s.length)
    (sorted : sa.Pairwise (fun i j => s.drop i < s.drop j)) : IsSuffixArray s sa where
  perm := by
    have nodup : sa.Nodup := sorted.imp (fun {i j} hlt (same : i = j) =>
      lt_irrefl _ (same ▸ hlt))
    have sub : sa ⊆ List.range (s.length + 1) := fun i hi =>
      List.mem_range.mpr (Nat.lt_succ_of_le (le i hi))
    refine List.Subperm.perm_of_length_le (nodup.subperm sub) ?_
    rw [length, List.length_range]
  sorted := sorted

theorem length_eq (h : IsSuffixArray s sa) : sa.length = s.length + 1 := by
  rw [h.perm.length_eq, List.length_range]

theorem mem_iff (h : IsSuffixArray s sa) {i : Nat} : i ∈ sa ↔ i ≤ s.length := by
  rw [h.perm.mem_iff, List.mem_range, Nat.lt_succ_iff]

theorem nodup (h : IsSuffixArray s sa) : sa.Nodup := h.perm.nodup_iff.mpr List.nodup_range

/-- Positions and suffixes determine each other, so there is one suffix array. -/
theorem unique {other : List Nat} (h : IsSuffixArray s sa) (h' : IsSuffixArray s other) :
    sa = other :=
  List.Perm.eq_of_pairwise (fun _ _ _ _ hlt hgt => absurd hlt (not_lt_of_gt hgt))
    h.sorted h'.sorted (h.perm.trans h'.perm.symm)

theorem getElem?_lt (h : IsSuffixArray s sa) {r r' i j : Nat} (hr : sa[r]? = some i)
    (hr' : sa[r']? = some j) (hlt : r < r') : s.drop i < s.drop j := by
  obtain ⟨hri, rfl⟩ := List.getElem?_eq_some_iff.mp hr
  obtain ⟨hrj, rfl⟩ := List.getElem?_eq_some_iff.mp hr'
  exact List.pairwise_iff_getElem.mp h.sorted r r' hri hrj hlt

theorem getElem_lt_iff (h : IsSuffixArray s sa) {r r' : Nat} (hr : r < sa.length)
    (hr' : r' < sa.length) : s.drop sa[r] < s.drop sa[r'] ↔ r < r' := by
  constructor
  · intro hlt
    by_contra hge
    obtain rfl | hgt := Nat.eq_or_lt_of_le (Nat.le_of_not_lt hge)
    · exact lt_irrefl _ hlt
    · exact lt_asymm hlt (List.pairwise_iff_getElem.mp h.sorted r' r hr' hr hgt)
  · exact List.pairwise_iff_getElem.mp h.sorted r r' hr hr'

theorem getElem_le (h : IsSuffixArray s sa) {r : Nat} (hr : r < sa.length) :
    sa[r] ≤ s.length := h.mem_iff.mp (List.getElem_mem hr)

/-- Every position has a rank. -/
theorem exists_rank (h : IsSuffixArray s sa) {i : Nat} (hi : i ≤ s.length) :
    ∃ r, ∃ hr : r < sa.length, sa[r] = i := List.mem_iff_getElem.mp (h.mem_iff.mpr hi)

/-- The empty suffix has rank zero. -/
theorem getElem?_zero [Inhabited α] (h : IsSuffixArray s sa) : sa[0]? = some s.length := by
  have hpos : 0 < sa.length := by
    rw [h.length_eq]
    omega
  obtain ⟨r, hr, same⟩ := h.exists_rank (Nat.le_refl s.length)
  obtain rfl | hrpos := Nat.eq_zero_or_pos r
  · rw [List.getElem?_eq_getElem hpos, same]
  · have := (h.getElem_lt_iff hpos hr).mpr hrpos
    rw [same] at this
    exact absurd this (not_lt_drop_length _)

end IsSuffixArray

end SuffixOrder
