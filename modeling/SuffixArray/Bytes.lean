import SuffixArray.SuffixOrder

/-!
# Bytes and lexicographic comparison

`unsigned char` is `UInt8` with its numeric order. `lexicographicalCompare` follows
the standard's description of `std::lexicographical_compare` with a comparator; under
`operator<` it is the order of lists. Since only comparisons matter, suffix arrays
survive strictly monotone maps of the letters.
-/

instance byteOrder : LinearOrder UInt8 where
  le_refl := UInt8.le_refl
  le_trans _ _ _ := UInt8.le_trans
  le_antisymm _ _ := UInt8.le_antisymm
  le_total := UInt8.le_total
  lt_iff_le_not_ge a b := by
    rw [UInt8.not_le]
    exact ⟨fun h => ⟨UInt8.le_of_lt h, h⟩, And.right⟩
  toDecidableLE := inferInstance
  toDecidableEq := inferInstance
  toDecidableLT := inferInstance

namespace SuffixOrder

variable {α β : Type}

/-- `std::lexicographical_compare` over two ranges with the comparator `less`. -/
def lexicographicalCompare (less : α → α → Bool) : List α → List α → Bool
  | _, [] => false
  | [], _ :: _ => true
  | a :: l, b :: l' =>
    if less a b then true
    else if less b a then false
    else lexicographicalCompare less l l'

theorem lexicographicalCompare_eq [LinearOrder α] (l l' : List α) :
    lexicographicalCompare (fun a b => decide (a < b)) l l' = decide (l < l') := by
  induction l generalizing l' with
  | nil =>
      cases l' with
      | nil => rfl
      | cons b l' => exact (decide_eq_true (List.nil_lt_cons b l')).symm
  | cons a l ih =>
      cases l' with
      | nil => exact (decide_eq_false (List.not_lt_nil _)).symm
      | cons b l' =>
          rw [lexicographicalCompare, ih]
          simp only [List.cons_lt_cons_iff]
          obtain hlt | rfl | hgt := lt_trichotomy a b
          · simp only [hlt, decide_true, if_true, true_or]
          · simp only [lt_irrefl, decide_false, Bool.false_eq_true, if_false, false_or, true_and]
          · simp only [hgt, lt_asymm hgt, (ne_of_lt hgt).symm, decide_true, decide_false,
              Bool.false_eq_true, if_false, if_true, false_or, false_and]

section Monotone

variable [LinearOrder α] [LinearOrder β] {g : α → β}

theorem map_lt_map_iff (mono : StrictMono g) (l l' : List α) : l.map g < l'.map g ↔ l < l' := by
  induction l generalizing l' with
  | nil =>
      cases l' with
      | nil => exact iff_of_false (List.not_lt_nil _) (List.not_lt_nil _)
      | cons b l' => exact iff_of_true (List.nil_lt_cons _ _) (List.nil_lt_cons _ _)
  | cons a l ih =>
      cases l' with
      | nil => exact iff_of_false (List.not_lt_nil _) (List.not_lt_nil _)
      | cons b l' =>
          rw [List.map_cons, List.map_cons, List.cons_lt_cons_iff, List.cons_lt_cons_iff,
            mono.lt_iff_lt, mono.injective.eq_iff, ih]

theorem isSuffixArray_map_iff (mono : StrictMono g) {s : List α} {sa : List Nat} :
    IsSuffixArray (s.map g) sa ↔ IsSuffixArray s sa := by
  have sorted : sa.Pairwise (fun i j => (s.map g).drop i < (s.map g).drop j) ↔
      sa.Pairwise (fun i j => s.drop i < s.drop j) := by
    simp only [← List.map_drop, map_lt_map_iff mono]
  constructor
  · rintro ⟨perm, pairwise⟩
    exact ⟨by rwa [List.length_map] at perm, sorted.mp pairwise⟩
  · rintro ⟨perm, pairwise⟩
    exact ⟨by rwa [List.length_map], sorted.mpr pairwise⟩

end Monotone

theorem toNat_strictMono : StrictMono UInt8.toNat := fun _ _ h => UInt8.lt_iff_toNat_lt.mp h

end SuffixOrder
