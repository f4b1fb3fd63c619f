import SuffixArray.Bytes
import SuffixArray.InducedSorting.Levels

/-!
# `SuffixArrayNaive` and the agreement of both constructions

`make_SA` sorts the positions with `std::sort` or `tbb::parallel_sort`. Both are
parameters; what is relied on is that they permute the range and leave it sorted
under the comparator. Neither sees the empty suffix, which is written in front.
-/

namespace SuffixArray.Naive

open Checked SuffixOrder

/-- A library sort takes a comparator and a range. -/
abbrev Sorter : Type := (Nat → Nat → Bool) → List Nat → List Nat

/-- The documented effect of a library sort under one comparator. -/
structure SortsUnder (sort : Sorter) (comp : Nat → Nat → Bool) : Prop where
  perm : ∀ l, (sort comp l).Perm l
  sorted : ∀ l, (sort comp l).Pairwise (fun i j => comp j i = false)

/-- `Comp` on two indices of the input. -/
def comp (data : List UInt8) (idx1 idx2 : Nat) : Bool :=
  lexicographicalCompare (fun a b => decide (a < b)) (data.drop idx1) (data.drop idx2)

/-- `make_SA` on the range of `data`, in either mode. -/
def makeSA (sort parallelSort : Sorter) (pMode : Bool) (data : List UInt8) : Run (List Nat) := do
  let indices ← forUp InducedSorting.idxBits 0 data.length
    (fun i indices => return indices ++ [i]) [data.length]
  let indices ← store indices 0 data.length
  if pMode then
    return indices.take 1 ++ parallelSort (comp data) (indices.drop 1)
  else
    return indices.take 1 ++ sort (comp data) (indices.drop 1)

variable {data : List UInt8} {sort parallelSort : Sorter}

theorem comp_eq (data : List UInt8) (i j : Nat) :
    comp data i j = decide (data.drop i < data.drop j) := lexicographicalCompare_eq _ _

/-- The sorted proper suffixes behind the empty one are the suffix array. -/
theorem SortsUnder.isSuffixArray (h : SortsUnder sort (comp data)) :
    IsSuffixArray data (data.length :: sort (comp data) (List.range data.length)) := by
  have perm := h.perm (List.range data.length)
  have inside : ∀ {i}, i ∈ sort (comp data) (List.range data.length) → i < data.length :=
    fun hi => List.mem_range.mp (perm.mem_iff.mp hi)
  refine ⟨?_, List.pairwise_cons.mpr ⟨fun i hi => drop_length_lt (inside hi), ?_⟩⟩
  · rw [List.range_succ]
    exact (perm.cons _).trans (List.perm_append_singleton _ _).symm
  · have nodup : (sort (comp data) (List.range data.length)).Nodup :=
      perm.nodup_iff.mpr List.nodup_range
    refine ((h.sorted _).and nodup).imp_of_mem (fun {i j} hi hj hij => ?_)
    have hle : data.drop i ≤ data.drop j := by
      rw [comp_eq, decide_eq_false_iff_not] at hij
      exact not_lt.mp hij.1
    exact lt_of_le_of_ne hle (fun same => hij.2 (drop_injOn (inside hi).le (inside hj).le same))

theorem makeSA_eq (fits : data.length < 2 ^ InducedSorting.idxBits)
    (hsort : SortsUnder sort (comp data)) (hparallel : SortsUnder parallelSort (comp data))
    (pMode : Bool) :
    ∃ SA, makeSA sort parallelSort pMode data = .ok SA ∧ IsSuffixArray data SA := by
  let inv (k : Nat) (indices : List Nat) : Prop := indices = data.length :: List.range k
  have step : ∀ i indices, 0 ≤ i → i < data.length → inv i indices → ∃ t,
      (return indices ++ [i] : Run (List Nat)) = .ok t ∧ inv (i + 1) t := by
    rintro i _ _ _ rfl
    refine ⟨_, rfl, ?_⟩
    simp only [inv, List.range_succ, List.cons_append]
  have init : inv 0 [data.length] := rfl
  obtain ⟨_, run, rfl⟩ := forUp_ok inv (Nat.zero_le _) fits init step
  have prepared : ∀ (rest : List Nat → List Nat),
      (data.length :: List.range data.length).take 1 ++
        rest ((data.length :: List.range data.length).drop 1) =
      data.length :: rest (List.range data.length) := fun _ => rfl
  rw [makeSA, run, ok_bind, store_of_lt (Nat.succ_pos _), ok_bind, List.set_cons_zero]
  cases pMode with
  | false => exact ⟨_, congrArg Except.ok (prepared _), hsort.isSuffixArray⟩
  | true => exact ⟨_, congrArg Except.ok (prepared _), hparallel.isSuffixArray⟩

/-- Merge sort is such a library sort. -/
theorem mergeSort_sortsUnder (data : List UInt8) :
    SortsUnder (fun comp l => l.mergeSort (fun i j => !comp j i)) (comp data) where
  perm l := List.mergeSort_perm l _
  sorted l := by
    have le_iff : ∀ i j, (!comp data j i) = true ↔ data.drop i ≤ data.drop j := by
      intro i j
      rw [comp_eq, Bool.not_eq_true', decide_eq_false_iff_not, not_lt]
    refine (List.pairwise_mergeSort ?_ ?_ l).imp (fun h => by simpa using h)
    · intro i j k hij hjk
      exact (le_iff i k).mpr (le_trans ((le_iff i j).mp hij) ((le_iff j k).mp hjk))
    · intro i j
      rw [Bool.or_eq_true, le_iff, le_iff]
      exact le_total _ _

/-- The induced sort returns the suffix array, which the naive sort returns as well. -/
theorem inducedSorting_eq_makeSA (data : List UInt8) (min max : UInt8)
    (two : 2 ≤ data.length) (fits : data.length < 2 ^ 32 - 1)
    (lower : ∀ c ∈ data, min ≤ c) (upper : ∀ c ∈ data, c ≤ max)
    (hsort : SortsUnder sort (comp data)) (hparallel : SortsUnder parallelSort (comp data)) :
    ∃ SA, (∀ fuel, data.length ≤ fuel →
        InducedSorting.run fuel min.toNat data max.toNat = .ok SA) ∧
      IsSuffixArray data SA ∧ SA[0]? = some data.length ∧
      (∀ other, IsSuffixArray data other → other = SA) ∧
      ∀ pMode, makeSA sort parallelSort pMode data = .ok SA := by
  have level := InducedSorting.isLevel_bytes (by omega) fits
    (fun c hc => UInt8.le_iff_toNat_le.mp (lower c hc))
    (fun c hc => UInt8.le_iff_toNat_le.mp (upper c hc))
  have byte : max.toNat + 1 < 2 ^ InducedSorting.idxBits :=
    Nat.lt_of_le_of_lt (Nat.succ_le_of_lt max.toNat_lt) (by decide)
  obtain ⟨SA, _, hSA⟩ := InducedSorting.run_eq level byte (Nat.le_refl _)
  have isSA := (isSuffixArray_map_iff toNat_strictMono).mp hSA
  refine ⟨SA, fun fuel enough => ?_, isSA, isSA.getElem?_zero, fun _ h => h.unique isSA, ?_⟩
  · obtain ⟨other, run, hother⟩ := InducedSorting.run_eq level byte enough
    rw [run, hother.unique hSA]
  · intro pMode
    obtain ⟨other, run, hother⟩ :=
      makeSA_eq (fits.trans_le (Nat.sub_le _ _)) hsort hparallel pMode
    rw [run, hother.unique isSA]

theorem inducedSorting_eq_makeSA_banana :
    ∃ SA, (∀ fuel, 6 ≤ fuel →
        InducedSorting.run fuel (97 : UInt8).toNat [98, 97, 110, 97, 110, 97]
          (110 : UInt8).toNat = .ok SA) ∧
      IsSuffixArray ([98, 97, 110, 97, 110, 97] : List UInt8) SA ∧ SA[0]? = some 6 ∧
      (∀ other, IsSuffixArray ([98, 97, 110, 97, 110, 97] : List UInt8) other → other = SA) ∧
      ∀ pMode, makeSA (fun comp l => l.mergeSort (fun i j => !comp j i))
        (fun comp l => l.mergeSort (fun i j => !comp j i)) pMode
        [98, 97, 110, 97, 110, 97] = .ok SA :=
  inducedSorting_eq_makeSA [98, 97, 110, 97, 110, 97] 97 110 (by decide) (by decide) (by simp)
    (by simp) (mergeSort_sortsUnder _) (mergeSort_sortsUnder _)

end SuffixArray.Naive
