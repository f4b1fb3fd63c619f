import SuffixArray.InducedSorting.Summary

/-!
# Undoing one level

The suffix array of the summary lists, from its entry 2 on, the LMS positions of
the level string by increasing suffix. Dropped at the tails in that order they are
sorted seeds, and both passes then sort all suffixes.
-/

namespace SuffixArray.InducedSorting

open Checked SuffixOrder

variable {s : List Nat} {lo size top : Nat} {f : Nat → Nat} {summarySA : List Nat}

theorem follows_drop (s : List Nat) : Follows s (fun e e' => s.drop e < s.drop e') where
  empty _ he := drop_length_lt he
  typed _ _ he he' := drop_lt_of_typed_lt he he'

theorem drop_lt_of_succ {e e' : Nat} (he : e < s.length) (he' : e' < s.length)
    (same : chr s e = chr s e') (h : s.drop (e + 1) < s.drop (e' + 1)) : s.drop e < s.drop e' :=
  (drop_lt_drop_iff he he').mpr (Or.inr ⟨same, h⟩)

/-- From sorted seeds the passes produce the suffix array. -/
theorem isSuffixArray_induced (level : IsLevel s lo size) {cell : Nat → Option Nat}
    (h : Seeds s (fun e e' => s.drop e < s.drop e') cell) : IsSuffixArray s (induced h) where
  perm := induced_perm h
  sorted := induced_pairwise level h (follows_drop s) (follows_drop s) (fun _ _ _ _ _ hlt => hlt)
    (fun _ _ he he' _ _ same => drop_lt_of_succ he he' same) (fun _ _ _ _ hlt => hlt)
    (fun _ _ he he' _ _ same => drop_lt_of_succ he he' same)

theorem lmsIdc_last (s : List Nat) : (lmsIdc s)[(lmsIdc s).length - 1]? = some s.length := by
  rw [lmsIdc, List.length_append, List.length_singleton, Nat.add_sub_cancel]
  exact List.getElem?_concat_length

theorem length_lmsIdc_pos (s : List Nat) : 0 < (lmsIdc s).length := by
  rw [lmsIdc, List.length_append, List.length_singleton]
  exact Nat.succ_pos _

section Ranks

variable (named : Named s f top) (hsa : IsSuffixArray ((lmsIdc s).map f) summarySA)

include named hsa

/-- Behind the empty suffix of the summary comes its last letter, the only 0. -/
theorem summarySA_one : summarySA[1]? = some ((lmsIdc s).length - 1) := by
  have hm := length_lmsIdc_pos s
  have length := hsa.length_eq
  rw [List.length_map] at length
  obtain ⟨r, hr, hrank⟩ := hsa.exists_rank (i := (lmsIdc s).length - 1) (by simp)
  have first := hsa.getElem?_zero
  have hone := List.getElem?_eq_getElem (show 1 < summarySA.length by omega)
  obtain hlow | rfl | hhigh := Nat.lt_trichotomy r 1
  · obtain rfl := Nat.lt_one_iff.mp hlow
    rw [List.getElem?_eq_getElem hr, hrank, Option.some.injEq, List.length_map] at first
    omega
  · rw [hone, hrank]
  · have below := hsa.getElem?_lt hone (List.getElem?_eq_getElem hr) hhigh
    have above := hsa.getElem?_lt first hone Nat.one_pos
    rw [hrank] at below
    have hle := hsa.getElem_le (show 1 < summarySA.length by omega)
    rw [List.length_map] at hle
    have hne : summarySA[1] ≠ (lmsIdc s).length := by
      intro heq
      rw [heq, List.length_map] at above
      exact lt_irrefl _ above
    have := named.drop_lt (List.getElem?_eq_getElem (by omega)) (lmsIdc_last s) below
    exact absurd this (not_lt_drop_length _)

/-- Entries from 2 on are letters of LMS positions. -/
theorem summarySA_entry {k : Nat} (hk : 1 < k) (hkm : k ≤ (lmsIdc s).length) :
    ∃ p q, summarySA[k]? = some p ∧ (lmsIdc s)[p]? = some q ∧ IsLMS s q := by
  have hm := length_lmsIdc_pos s
  have length := hsa.length_eq
  rw [List.length_map] at length
  have hlt : k < summarySA.length := by omega
  have hk' := List.getElem?_eq_getElem hlt
  have distinct : ∀ {r i : Nat}, summarySA[r]? = some i → r < k → summarySA[k] ≠ i := by
    rintro r i hr hrk rfl
    exact absurd ((List.getElem?_inj (by omega) hsa.nodup).mp (hr.trans hk'.symm))
      (Nat.ne_of_lt hrk)
  have first := distinct hsa.getElem?_zero (by omega)
  have second := distinct (summarySA_one named hsa) hk
  have hle := hsa.getElem_le hlt
  rw [List.length_map] at first hle
  have hq := List.getElem?_eq_getElem (show summarySA[k] < (lmsIdc s).length by omega)
  refine ⟨_, _, hk', hq, (mem_of_lmsIdc hq).resolve_right ?_⟩
  have := lmsIdc_lt hq (lmsIdc_last s) (by omega)
  omega

theorem lmsListed : ∃ pos, LmsListed s (fun e e' => s.drop e < s.drop e') summarySA (lmsIdc s) pos
    (lmsIdc s).length := by
  have length := hsa.length_eq
  rw [List.length_map] at length
  let pos (k : Nat) : Nat := (lmsIdc s).getD (summarySA.getD k 0) 0
  have entry : ∀ k, 1 < k → k ≤ (lmsIdc s).length →
      ∃ p, summarySA[k]? = some p ∧ (lmsIdc s)[p]? = some (pos k) ∧ IsLMS s (pos k) := by
    intro k hk hkm
    obtain ⟨p, q, hp, hq, hlms⟩ := summarySA_entry named hsa hk hkm
    have : pos k = q := by
      simp only [pos, List.getD_eq_getElem?_getD, hp, hq, Option.getD_some]
    exact ⟨p, hp, this ▸ hq, this ▸ hlms⟩
  have order : ∀ k k', 1 < k → k < k' → k' ≤ (lmsIdc s).length →
      s.drop (pos k) < s.drop (pos k') := by
    intro k k' hk hlt hkm
    obtain ⟨p, hp, hpos, _⟩ := entry k hk (by omega)
    obtain ⟨p', hp', hpos', _⟩ := entry k' (by omega) hkm
    exact named.drop_lt hpos hpos' (hsa.getElem?_lt hp hp' hlt)
  refine ⟨pos, length, ?_, ?_, ?_, ?_, order⟩
  · intro k hk hkm
    obtain ⟨p, hp, hpos, _⟩ := entry k hk hkm
    exact ⟨p, hp, hpos⟩
  · intro k hk hkm
    obtain ⟨_, _, _, hlms⟩ := entry k hk hkm
    exact hlms
  · intro q hq
    obtain ⟨p, hp⟩ := List.mem_iff_getElem?.mp (mem_lmsIdc.mpr (Or.inl hq))
    have hplt := (List.getElem?_eq_some_iff.mp hp).1
    obtain ⟨k, hk, hrank⟩ := hsa.exists_rank (i := p) (by simpa using hplt.le)
    have hkp := (List.getElem?_eq_getElem hk).trans (congrArg some hrank)
    have high : 1 < k := by
      obtain hlow | rfl | hhigh := Nat.lt_trichotomy k 1
      · obtain rfl := Nat.lt_one_iff.mp hlow
        have := Option.some.inj (hkp.symm.trans hsa.getElem?_zero)
        rw [List.length_map] at this
        omega
      · have := Option.some.inj (hkp.symm.trans (summarySA_one named hsa))
        rw [this, lmsIdc_last, Option.some.injEq] at hp
        have := hq.2.1
        omega
      · exact hhigh
    refine ⟨k, high, by omega, ?_⟩
    simp only [pos, List.getD_eq_getElem?_getD, hkp, hp, Option.getD_some]
  · intro k k' hk hlt hkm same
    exact absurd (same ▸ order k k' hk hlt hkm) (lt_irrefl _)

end Ranks

/-- `fromStack` from the closed forms of what `toStack` has pushed. -/
theorem fromStack_eq (level : IsLevel s lo size) (named : Named s f top)
    (hsa : IsSuffixArray ((lmsIdc s).map f) summarySA) : ∃ SA,
    fromStack ⟨s, typesOf s, lmsIdc s, countsOf s lo size⟩ summarySA lo = .ok SA ∧
      IsSuffixArray s SA := by
  obtain ⟨pos, listed⟩ := lmsListed named hsa
  obtain ⟨cell, seeded, h⟩ := lmsSort_eq level (length_lmsIdc_pos s) listed
  obtain ⟨heads, tails, between, runL, runS⟩ := passes_eq level h
  refine ⟨induced h, ?_, isSuffixArray_induced level h⟩
  rw [fromStack, makeBuckets_tails level, ok_bind, makeBuckets_heads level, ok_bind, seeded,
    ok_bind, runL, ok_bind, runS, ok_bind, pure_eq_ok]

/-- One level is undone exactly, whatever string it was. -/
theorem fromStack_sorts_suffixes (level : IsLevel s lo size) {pushed : Pushed}
    (run : toStack s size lo = .ok pushed) (hsa : IsSuffixArray pushed.summary summarySA) :
    ∃ SA, fromStack pushed.element summarySA lo = .ok SA ∧ IsSuffixArray s SA := by
  obtain ⟨f, top, run', named⟩ := toStack_eq level
  obtain rfl := Except.ok.inj (run'.symm.trans run)
  exact fromStack_eq level named hsa

theorem fromStack_sorts_suffixes_banana :
    ∃ SA, fromStack ⟨[1, 0, 2, 0, 2, 0], typesOf [1, 0, 2, 0, 2, 0], [1, 3, 6], [3, 1, 2]⟩
      [3, 2, 1, 0] 0 = .ok SA ∧ IsSuffixArray [1, 0, 2, 0, 2, 0] SA := by
  have level : IsLevel [1, 0, 2, 0, 2, 0] 0 3 := ⟨by decide, by decide, by decide, by decide⟩
  have run : toStack [1, 0, 2, 0, 2, 0] 3 0 = .ok
      ⟨⟨[1, 0, 2, 0, 2, 0], typesOf [1, 0, 2, 0, 2, 0], [1, 3, 6], [3, 1, 2]⟩, [2, 1, 0], 3, 3⟩ :=
    by decide
  exact fromStack_sorts_suffixes level run (by decide)

end SuffixArray.InducedSorting
