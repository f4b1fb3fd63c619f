import SuffixArray.InducedSorting.Buckets

/-!
# The labels of `make_STypes` are the order of the suffixes

The loop of `make_STypes` counts an `idxT` down and ends when it has become `invalid`,
which it does by stepping below zero; for a string of one character it starts there.
While the length leaves `invalid` free, the loop visits the slots that `makeSTypes`
visits, and its flags compare each suffix with the next one. In a bucket that puts the
L-type suffixes in front of the S-type ones.
-/

namespace SuffixArray.InducedSorting

open Checked SuffixOrder

/-- `idxT i = alph_cont.size()-2`. The size has 64 bits. -/
def lastButOne (size : Nat) : Nat := (size + (2 ^ 64 - 2)) % 2 ^ 64 % 2 ^ idxBits

/-- `make_STypes` with the counter of its loop as the machine has it. -/
def makeSTypesWrapping (fuel : Nat) (alphCont : List Nat) : Run (List Bool) := do
  let sTypes ← store (List.replicate (alphCont.length + 1) false) alphCont.length true
  if alphCont.length ≠ 0 then
    let sTypes ← store sTypes (alphCont.length - 1) false
    forDownWrapping idxBits (fun i sTypes => do
      let c ← load alphCont i
      let c' ← load alphCont (i + 1)
      let next ← load sTypes (i + 1)
      if c' < c ∨ (c = c' ∧ ¬ next) then store sTypes i false else store sTypes i true)
      fuel (lastButOne alphCont.length) sTypes
  else
    return sTypes

/-- Flags that tell for each suffix whether it precedes the next one. The empty suffix
counts as if it did. -/
structure LabelsSuffixes (s : List Nat) (sTypes : List Bool) : Prop where
  length : sTypes.length = s.length + 1
  flag_iff : ∀ i ≤ s.length, sTypes[i]? = some true ↔ i = s.length ∨ s.drop i < s.drop (i + 1)

variable {s : List Nat}

theorem lastButOne_eq {size : Nat} (pos : 0 < size) (fits : size < 2 ^ idxBits - 1) :
    lastButOne size = wrappingPred idxBits (size - 1) := by
  simp only [lastButOne, wrappingPred, idxBits] at fits ⊢
  omega

theorem makeSTypesWrapping_eq (pos : 0 < s.length) (fits : s.length < 2 ^ idxBits - 1) {fuel : Nat}
    (enough : s.length ≤ fuel) : makeSTypesWrapping fuel s = makeSTypes s := by
  have slots : s.length - 1 < 2 ^ idxBits := by omega
  have iterations : s.length - 1 ≤ fuel := by omega
  simp only [makeSTypesWrapping, makeSTypes, lastButOne_eq pos fits,
    forDownWrapping_eq slots iterations]

theorem getElem?_typesOf {i : Nat} (hi : i ≤ s.length) :
    (typesOf s)[i]? = some (decide (IsS s i)) := load_eq_ok.mp (load_typesOf hi)

theorem labelsSuffixes_typesOf (s : List Nat) : LabelsSuffixes s (typesOf s) where
  length := length_typesOf s
  flag_iff i hi := by
    rw [getElem?_typesOf hi, Option.some.injEq, decide_eq_true_eq, IsS]

namespace LabelsSuffixes

variable {sTypes : List Bool}

theorem isS_of_true (h : LabelsSuffixes s sTypes) {i : Nat} (hi : i ≤ s.length)
    (flag : sTypes[i]? = some true) : IsS s i := (h.flag_iff i hi).mp flag

theorem not_isS_of_false (h : LabelsSuffixes s sTypes) {i : Nat} (hi : i ≤ s.length)
    (flag : sTypes[i]? = some false) : ¬ IsS s i := by
  intro hs
  have := (h.flag_iff i hi).mpr hs
  rw [flag] at this
  cases this

/-- Of two suffixes with one first character, the L-type one is the smaller. -/
theorem drop_lt (h : LabelsSuffixes s sTypes) {i j : Nat} (hi : i < s.length) (hj : j < s.length)
    (same : s[i]? = s[j]?) (hl : sTypes[i]? = some false) (hs : sTypes[j]? = some true) :
    s.drop i < s.drop j := by
  rw [getElem?_eq_chr hi, getElem?_eq_chr hj, Option.some.injEq] at same
  exact lt_of_not_isS_of_isS hi hj same (h.not_isS_of_false hi.le hl) (h.isS_of_true hj.le hs)

end LabelsSuffixes

/-- `make_STypes` labels every suffix by how it compares with the next one, and among the
suffixes with one first character the L-type ones come first. -/
theorem makeSTypesWrapping_labels (nonempty : 1 ≤ s.length) (fits : s.length < 2 ^ 32 - 1)
    {fuel : Nat} (enough : s.length ≤ fuel) :
    ∃ sTypes, makeSTypesWrapping fuel s = .ok sTypes ∧ LabelsSuffixes s sTypes ∧
      ∀ i j, i < s.length → j < s.length → s[i]? = s[j]? → sTypes[i]? = some false →
        sTypes[j]? = some true → s.drop i < s.drop j := by
  have labels := labelsSuffixes_typesOf s
  refine ⟨typesOf s, ?_, labels, fun i j hi hj same hl hs => labels.drop_lt hi hj same hl hs⟩
  rw [makeSTypesWrapping_eq nonempty fits enough, makeSTypes_eq nonempty]

theorem makeSTypesWrapping_labels_abab : ∃ sTypes,
    makeSTypesWrapping 4 [97, 98, 97, 98] = .ok sTypes ∧ LabelsSuffixes [97, 98, 97, 98] sTypes ∧
      ∀ i j, i < 4 → j < 4 → [97, 98, 97, 98][i]? = [97, 98, 97, 98][j]? →
        sTypes[i]? = some false → sTypes[j]? = some true →
          [97, 98, 97, 98].drop i < [97, 98, 97, 98].drop j :=
  makeSTypesWrapping_labels (by decide) (by decide) (by decide)

end SuffixArray.InducedSorting
