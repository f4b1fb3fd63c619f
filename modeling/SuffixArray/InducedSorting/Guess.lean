import SuffixArray.InducedSorting.Order
import SuffixArray.InducedSorting.Seeding

/-!
# The guess pass sorts LMS substrings

`guess` drops the LMS positions in text order and runs both passes. Along the
result every position stands by its substring up to and including the next LMS
position: after the L pass an S-type seed counts with its first character only,
and the S pass replaces the seeds.
-/

namespace SuffixArray.InducedSorting

open Checked SuffixOrder

variable {s : List Nat} {lo size : Nat}

theorem follows_typedTail (s : List Nat) :
    Follows s (fun e e' => typedTail s e ≤ typedTail s e') where
  empty e _ := by
    rw [typedTail_of_le (Nat.le_refl _)]
    exact not_lt.mp (List.not_lt_nil _)
  typed e e' he he' hlt := by
    obtain ⟨rest, heq⟩ := typedTail_eq_cons he
    obtain ⟨rest', heq'⟩ := typedTail_eq_cons he'
    rw [heq, heq']
    exact le_of_lt (List.cons_lt_cons_iff.mpr (Or.inl hlt))

theorem follows_lmsSubstring (s : List Nat) :
    Follows s (fun e e' => lmsSubstring s e ≤ lmsSubstring s e') where
  empty e _ := by
    rw [lmsSubstring_of_le (Nat.le_refl _)]
    exact not_lt.mp (List.not_lt_nil _)
  typed e e' he he' hlt := by
    rw [lmsSubstring_eq he, lmsSubstring_eq he']
    exact le_of_lt (List.cons_lt_cons_iff.mpr (Or.inl hlt))

theorem follows_chr (s : List Nat) :
    Follows s (fun e e' => e < s.length → e' < s.length → chr s e ≤ chr s e') where
  empty _ _ h := absurd h (Nat.lt_irrefl _)
  typed e e' _ _ hlt _ _ := by
    obtain hchr | ⟨same, _⟩ := typed_lt_typed_iff.mp hlt
    · exact Nat.le_of_lt hchr
    · exact Nat.le_of_eq same

/-- One character and one type in front keep the order of substrings. -/
theorem lmsSubstring_le_of_succ {e e' : Nat} (he : e < s.length) (he' : e' < s.length)
    (same : typed s e = typed s e') (h : typedTail s (e + 1) ≤ typedTail s (e' + 1)) :
    lmsSubstring s e ≤ lmsSubstring s e' := by
  rw [lmsSubstring_eq he, lmsSubstring_eq he', same]
  exact List.cons_le_cons _ h

/-- An array of all positions that lists the LMS positions by LMS substring. -/
structure GuessSorted (s sa : List Nat) : Prop where
  perm : sa.Perm (List.range (s.length + 1))
  head : sa[0]? = some s.length
  chars : sa.Pairwise (fun p q => p < s.length → q < s.length → chr s p ≤ chr s q)
  substrings : sa.Pairwise (fun p q => lmsSubstring s p ≤ lmsSubstring s q)

/-- Behind the empty suffix stand the proper ones. -/
theorem GuessSorted.lt_of_mem_tail {sa : List Nat} (h : GuessSorted s sa) {p : Nat}
    (hp : p ∈ sa.tail) : p < s.length := by
  have nodup := h.perm.nodup_iff.mpr List.nodup_range
  have hle := List.mem_range.mp (h.perm.mem_iff.mp (List.mem_of_mem_tail hp))
  have head := h.head
  cases sa with
  | nil => exact absurd hp List.not_mem_nil
  | cons first rest =>
      obtain rfl : first = s.length := Option.some.inj head
      have hne : p ≠ s.length := fun same => (List.nodup_cons.mp nodup).1 (same ▸ hp)
      omega

/-- Text order does for the seeds: they count with their first character only. -/
theorem guessSorted_induced (level : IsLevel s lo size) {cell : Nat → Option Nat}
    (h : Seeds s (fun e e' => e' < e) cell) : GuessSorted s (induced h) where
  perm := induced_perm h
  head := induced_head h
  chars := induced_pairwise level h (follows_chr s) (follows_chr s)
    (fun _ _ _ _ same _ _ _ => Nat.le_of_eq same)
    (fun _ _ _ _ _ _ same _ _ _ => Nat.le_of_eq same) (fun _ _ _ _ h => h)
    (fun _ _ _ _ _ _ same _ _ _ => Nat.le_of_eq same)
  substrings := by
    refine induced_pairwise level h (follows_typedTail s) (follows_lmsSubstring s) ?_ ?_ ?_ ?_
    · intro e e' hlms hlms' same _
      rw [typedTail_of_isLMS hlms, typedTail_of_isLMS hlms',
        typed_eq_typed_iff.mpr ⟨same, iff_of_true hlms.2.2.1 hlms'.2.2.1⟩]
    · intro e e' he he' hl hl' same ih
      rw [typedTail_of_not_isLMS he (fun h => hl h.2.2.1),
        typedTail_of_not_isLMS he' (fun h => hl' h.2.2.1)]
      exact lmsSubstring_le_of_succ he he' (typed_eq_typed_iff.mpr ⟨same, iff_of_false hl hl'⟩) ih
    · intro e e' hl hl' htail
      rwa [typedTail_of_not_isS hl, typedTail_of_not_isS hl'] at htail
    · intro e e' he he' hs hs' same ih
      refine lmsSubstring_le_of_succ he he' (typed_eq_typed_iff.mpr ⟨same, iff_of_true hs hs'⟩) ?_
      rwa [typedTail_of_not_isLMS (hs.succ_lt he) (IsLMS.not_succ hs),
        typedTail_of_not_isLMS (hs'.succ_lt he') (IsLMS.not_succ hs')]

/-- `guess` returns, with the types, the bucket sizes and a sorted guess. -/
theorem guess_eq (level : IsLevel s lo size) : ∃ g, guess s size lo = .ok g ∧
    g.sTypes = typesOf s ∧ g.counts = countsOf s lo size ∧ GuessSorted s g.guessedSA := by
  obtain ⟨cell, seeded, h⟩ := guessSortLMS_eq level
  obtain ⟨heads, tails, between, runL, runS⟩ := passes_eq level h
  refine ⟨⟨typesOf s, countsOf s lo size, induced h⟩, ?_, rfl, rfl, guessSorted_induced level h⟩
  simp only [guess, makeSTypes_eq level.pos, sub_of_le level.lo_lt_size.le, makeCounts_eq level,
    makeBuckets_tails level, makeBuckets_heads level, seeded, runL, runS, ok_bind, pure_eq_ok]

/-- What lies between two equal elements of a sorted list equals both. -/
theorem eq_of_le_of_le {β : Type} [PartialOrder β] {f : Nat → β} {l : List Nat}
    (h : l.Pairwise (fun p q => f p ≤ f q)) {i j k : Nat} (hij : i ≤ j) (hjk : j ≤ k)
    (hk : k < l.length) (same : f l[i] = f l[k]) : f l[j] = f l[i] := by
  have mono : ∀ {i j : Nat} (hij : i ≤ j) (hj : j < l.length), f l[i] ≤ f l[j] := by
    intro i j hij hj
    obtain rfl | hlt := Nat.eq_or_lt_of_le hij
    · exact le_refl _
    · exact List.pairwise_iff_getElem.mp h i j (by omega) hj hlt
  exact le_antisymm ((mono hjk hk).trans same.ge) (mono hij (by omega))

/-- The guess of every level string. -/
theorem guess_sorts_lmsSubstrings (level : IsLevel s lo size) :
    ∃ g, guess s size lo = .ok g ∧
      g.guessedSA.Perm (List.range (s.length + 1)) ∧ g.guessedSA[0]? = some s.length ∧
      g.guessedSA.tail.Pairwise (fun p q => chr s p ≤ chr s q) ∧
      (g.guessedSA.filter (IsLMS s)).Pairwise (fun p q => lmsSubstring s p ≤ lmsSubstring s q) ∧
      ∀ i j k (hij : i ≤ j) (hjk : j ≤ k) (hk : k < (g.guessedSA.filter (IsLMS s)).length),
        lmsSubstring s (g.guessedSA.filter (IsLMS s))[i] =
          lmsSubstring s (g.guessedSA.filter (IsLMS s))[k] →
        lmsSubstring s (g.guessedSA.filter (IsLMS s))[j] =
          lmsSubstring s (g.guessedSA.filter (IsLMS s))[i] := by
  obtain ⟨g, run, _, _, sorted⟩ := guess_eq level
  have lms := sorted.substrings.filter (fun p => decide (IsLMS s p))
  refine ⟨g, run, sorted.perm, sorted.head, ?_, lms, fun i j k hij hjk hk => ?_⟩
  · exact (sorted.chars.sublist (List.tail_sublist _)).imp_of_mem
      (fun hp hq h => h (sorted.lt_of_mem_tail hp) (sorted.lt_of_mem_tail hq))
  · exact eq_of_le_of_le lms hij hjk hk

theorem guess_sorts_lmsSubstrings_abab : ∃ g, guess [1, 0, 1, 0] 2 0 = .ok g ∧
    g.guessedSA.Perm (List.range 5) ∧ g.guessedSA[0]? = some 4 := by
  have level : IsLevel [1, 0, 1, 0] 0 2 := ⟨by decide, by decide, by decide, by decide⟩
  obtain ⟨g, run, perm, head, _⟩ := guess_sorts_lmsSubstrings level
  exact ⟨g, run, perm, head⟩

end SuffixArray.InducedSorting
