import SuffixArray.InducedSorting.Unwind

/-!
# All levels of the induced sort

Every summary is a level string again, over the names as alphabet, and a shorter
one. Levels are pushed until the names of a summary are all different; then the
summary is a permutation, its suffix array is the inverse, and the levels are
undone in reverse order.
-/

namespace SuffixArray.InducedSorting

open Checked SuffixOrder

variable {s : List Nat} {lo size top : Nat} {f : Nat → Nat}

theorem length_lmsIdc (s : List Nat) :
    (lmsIdc s).length = ((List.range s.length).filter (IsLMS s)).length + 1 := by
  rw [lmsIdc, List.length_append, List.length_singleton]

/-- Two neighbours are never both LMS positions, and the first position is none. -/
theorem length_filter_isLMS_le (s : List Nat) (n : Nat) :
    ((List.range n).filter (IsLMS s)).length ≤ n / 2 := by
  induction n using Nat.twoStepInduction with
  | zero => exact Nat.le_refl 0
  | one =>
      have first : ¬ IsLMS s 0 := fun h => Nat.lt_irrefl 0 h.1
      rw [List.range_one, List.filter_singleton, decide_eq_false first]
      exact Nat.le_refl 0
  | more n ih _ =>
      have pair : ([n, n + 1].filter (IsLMS s)).length ≤ 1 := by
        by_cases hlms : IsLMS s n
        · have next : ¬ IsLMS s (n + 1) := IsLMS.not_succ hlms.2.2.1
          rw [List.filter_cons, List.filter_singleton, decide_eq_true hlms, decide_eq_false next]
          exact Nat.le_refl 1
        · rw [List.filter_cons, decide_eq_false hlms]
          exact List.length_filter_le (fun q => decide (IsLMS s q)) [n + 1]
      rw [List.range_succ, List.range_succ, List.append_assoc, List.singleton_append,
        List.filter_append, List.length_append]
      omega

/-- Nor is the last one. A summary has at most half as many letters, rounded up. -/
theorem length_lmsIdc_half (hpos : 0 < s.length) : (lmsIdc s).length ≤ (s.length + 1) / 2 := by
  obtain ⟨k, hk⟩ := Nat.exists_eq_add_of_le' hpos
  have last : ¬ IsLMS s k := fun hlms => not_isS_last (by omega) hlms.2.2.1
  have fewer := length_filter_isLMS_le s k
  rw [length_lmsIdc, hk, List.range_succ, List.filter_append, List.filter_singleton,
    decide_eq_false last, cond_false, List.append_nil]
  omega

theorem length_lmsIdc_le (hpos : 0 < s.length) : (lmsIdc s).length ≤ s.length :=
  (length_lmsIdc_half hpos).trans (by omega)

theorem length_lmsIdc_lt (h : 2 ≤ s.length) : (lmsIdc s).length < s.length :=
  Nat.lt_of_le_of_lt (length_lmsIdc_half (Nat.zero_lt_of_lt h)) (by omega)

theorem mem_summary {f : Nat → Nat} {c : Nat} (h : c ∈ (lmsIdc s).map f) :
    ∃ q, (IsLMS s q ∨ q = s.length) ∧ f q = c := by
  obtain ⟨q, hq, rfl⟩ := List.mem_map.mp h
  exact ⟨q, mem_lmsIdc.mp hq, rfl⟩

namespace Named

/-- The summary of a level string is a level string. -/
theorem isLevel (h : Named s f top) (level : IsLevel s lo size) :
    IsLevel ((lmsIdc s).map f) 0 (top + 1) where
  pos := by
    rw [List.length_map]
    exact length_lmsIdc_pos s
  fits := by
    rw [List.length_map]
    exact Nat.lt_of_le_of_lt (length_lmsIdc_le level.pos) level.fits
  lo_le _ _ := Nat.zero_le _
  lt_size c hc := by
    obtain ⟨q, hlms | rfl, rfl⟩ := mem_summary hc
    · exact Nat.lt_succ_of_le (h.bounds q hlms).2
    · rw [h.sentinel]
      exact Nat.succ_pos top

theorem mem_of_le (h : Named s f top) {c : Nat} (hc : c ≤ top) : c ∈ (lmsIdc s).map f := by
  obtain rfl | hpos := Nat.eq_zero_or_pos c
  · exact List.mem_map.mpr ⟨s.length, mem_lmsIdc.mpr (Or.inr rfl), h.sentinel⟩
  · obtain ⟨q, hlms, hq⟩ := h.onto c hpos hc
    exact List.mem_map.mpr ⟨q, mem_lmsIdc.mpr (Or.inl hlms), hq⟩

/-- The letters of the summary are exactly the names. -/
theorem mem_summary_iff (h : Named s f top) {c : Nat} : c ∈ (lmsIdc s).map f ↔ c ≤ top := by
  constructor
  · intro hc
    obtain ⟨q, hlms | rfl, rfl⟩ := mem_summary hc
    · exact (h.bounds q hlms).2
    · rw [h.sentinel]
      exact Nat.zero_le top
  · exact h.mem_of_le

theorem names_subperm (h : Named s f top) :
    List.Subperm (List.range (top + 1)) ((lmsIdc s).map f) :=
  List.nodup_range.subperm (fun _ hc => h.mem_of_le (Nat.le_of_lt_succ (List.mem_range.mp hc)))

/-- As many names as letters: no name is used twice. -/
theorem perm_of_full (h : Named s f top) (full : (lmsIdc s).length = top + 1) :
    ((lmsIdc s).map f).Perm (List.range ((lmsIdc s).map f).length) := by
  rw [List.length_map, full]
  refine (List.Subperm.perm_of_length_le h.names_subperm ?_).symm
  rw [List.length_map, List.length_range, full]

/-- A summary of one letter has one name, and one of two letters has two. -/
theorem three_le (h : Named s f top) (more : (lmsIdc s).length ≠ top + 1) :
    3 ≤ (lmsIdc s).length := by
  have enough := h.names_subperm.length_le
  rw [List.length_range, List.length_map] at enough
  obtain rfl | hpos := Nat.eq_zero_or_pos top
  · -- Without any name but the sentinel's there is no LMS position.
    have none : (List.range s.length).filter (IsLMS s) = [] := by
      apply List.filter_eq_nil_iff.mpr
      intro q _ hq
      have := h.bounds q (of_decide_eq_true hq)
      omega
    rw [length_lmsIdc, none] at more
    exact absurd rfl more
  · omega

end Named

/-- The loop inverts a permutation, shifted by the empty suffix. -/
theorem retSummarySA_run {summary : List Nat}
    (perm : summary.Perm (List.range summary.length)) (fits : summary.length < 2 ^ idxBits) :
    ∃ g : Nat → Nat, retSummarySA summary = .ok ((List.range (summary.length + 1)).map g) ∧
      g 0 = summary.length ∧ ∀ i c, summary[i]? = some c → g (c + 1) = i := by
  have letter : ∀ {i c}, summary[i]? = some c → c < summary.length := fun hc =>
    List.mem_range.mp (perm.mem_iff.mp (List.mem_of_getElem? hc))
  let inv (k : Nat) (sa : List Nat) : Prop := ∃ g : Nat → Nat,
    sa = (List.range (summary.length + 1)).map g ∧ g 0 = summary.length ∧
      ∀ i c, i < k → summary[i]? = some c → g (c + 1) = i
  have init : inv 0 (List.replicate (summary.length + 1) summary.length) :=
    ⟨fun _ => summary.length, replicate_eq_table _ _, rfl,
      fun _ _ hi => absurd hi (Nat.not_lt_zero _)⟩
  have step : ∀ k sa, 0 ≤ k → k < summary.length → inv k sa → ∃ t, (do
      store sa (← inc idxBits (← load summary k)) k) = .ok t ∧ inv (k + 1) t := by
    rintro k _ _ hk ⟨g, rfl, hzero, hg⟩
    have now := List.getElem?_eq_getElem hk
    have hlt := letter now
    have room : summary[k] + 1 < 2 ^ idxBits := by omega
    refine ⟨_, ?_, fun j => if j = summary[k] + 1 then k else g j, rfl, hzero, ?_⟩
    · rw [load_eq_ok.mpr now, ok_bind, inc_of_lt room, ok_bind, store_table g (by omega)]
    · intro i c hi hc
      obtain rfl | hik := Nat.eq_or_lt_of_le (Nat.le_of_lt_succ hi)
      · exact if_pos (by rw [Option.some.inj (hc.symm.trans now)])
      · have nodup := perm.nodup_iff.mpr List.nodup_range
        have hne : c ≠ summary[k] := by
          rintro rfl
          exact absurd ((List.getElem?_inj (hik.trans hk) nodup).mp (hc.trans now.symm))
            (Nat.ne_of_lt hik)
        exact (if_neg (by omega)).trans (hg i c hik hc)
  obtain ⟨_, run, g, rfl, hzero, hg⟩ := forUp_ok inv (Nat.zero_le _) fits init step
  exact ⟨g, run, hzero, fun i c hc => hg i c (List.getElem?_eq_some_iff.mp hc).1 hc⟩

/-- The first letters order the suffixes of a string without repetitions. -/
theorem retSummarySA_eq {summary : List Nat} (perm : summary.Perm (List.range summary.length))
    (fits : summary.length < 2 ^ idxBits) :
    ∃ sa, retSummarySA summary = .ok sa ∧ IsSuffixArray summary sa := by
  obtain ⟨g, run, hzero, hg⟩ := retSummarySA_run perm fits
  have entry : ∀ r, r < summary.length → ∃ hr : g (r + 1) < summary.length,
      summary[g (r + 1)] = r := by
    intro r hr
    obtain ⟨i, hi, hir⟩ := List.mem_iff_getElem.mp
      (perm.mem_iff.mpr (List.mem_range.mpr hr) : r ∈ summary)
    have : g (r + 1) = i := hg i r (List.getElem?_eq_some_iff.mpr ⟨hi, hir⟩)
    simp only [this]
    exact ⟨hi, hir⟩
  refine ⟨_, run, IsSuffixArray.of_sorted (by simp) ?_ ?_⟩
  · intro i hi
    obtain ⟨r, hr, rfl⟩ := List.mem_map.mp hi
    cases r with
    | zero => exact Nat.le_of_eq hzero
    | succ r =>
        have := List.mem_range.mp hr
        exact (entry r (by omega)).1.le
  · rw [List.pairwise_map]
    refine List.pairwise_lt_range.imp_of_mem (fun {r r'} hr hr' hlt => ?_)
    obtain ⟨c', rfl⟩ := Nat.exists_eq_succ_of_ne_zero (Nat.ne_of_gt (Nat.zero_lt_of_lt hlt))
    have := List.mem_range.mp hr'
    obtain ⟨hc', heq'⟩ := entry c' (by omega)
    cases r with
    | zero =>
        rw [hzero]
        exact drop_length_lt hc'
    | succ c =>
        obtain ⟨hc, heq⟩ := entry c (by omega)
        refine (drop_lt_drop_iff hc hc').mpr (Or.inl ?_)
        rw [chr_eq_getElem hc, chr_eq_getElem hc', heq, heq']
        omega

/-- From any level on, pushing and undoing the levels above it yields the suffix
array of its summary, with the levels below untouched. The induction is on the
iterations left; every one shortens the summary. -/
theorem populate_eq (level : IsLevel s lo size) (named : Named s f top) {fuel : Nat}
    (enough : (lmsIdc s).length ≤ fuel) (stack : List StackElement) :
    ∃ populated summarySA SA,
      populate fuel stack ((lmsIdc s).map f) ((lmsIdc s).map f).length (top + 1) = .ok populated ∧
      retSummarySA populated.2 = .ok summarySA ∧
      unwind populated.1 summarySA = unwind stack SA ∧ IsSuffixArray ((lmsIdc s).map f) SA := by
  induction fuel generalizing s lo size f top stack with
  | zero =>
      have := length_lmsIdc_pos s
      omega
  | succ fuel ih =>
      rw [populate]
      by_cases full : ((lmsIdc s).map f).length = top + 1
      · rw [if_pos full]
        have fits := (named.isLevel level).lt_pow (Nat.le_refl _)
        obtain ⟨sa, hret, hsa⟩ := retSummarySA_eq
          (named.perm_of_full ((List.length_map _).symm.trans full)) fits
        exact ⟨_, sa, sa, rfl, hret, rfl, hsa⟩
      · rw [if_neg full]
        have level' := named.isLevel level
        have three := named.three_le (fun h => full ((List.length_map _).trans h))
        obtain ⟨f', top', pushed, named'⟩ := toStack_eq level'
        have shorter := length_lmsIdc_lt (s := (lmsIdc s).map f) (by
          rw [List.length_map]
          omega)
        rw [List.length_map] at shorter
        obtain ⟨populated, summarySA, SA', hpop, hret, hunwind, hSA'⟩ := ih level' named'
          (by omega) (⟨_, typesOf _, lmsIdc _, countsOf _ 0 (top + 1)⟩ :: stack)
        obtain ⟨SA, hfrom, hSA⟩ := fromStack_eq level' named' hSA'
        refine ⟨populated, summarySA, SA, ?_, hret, ?_, hSA⟩
        · rw [pushed, ok_bind, hpop]
        · rw [hunwind, unwind, hfrom, ok_bind]

/-- Bytes within the bounds given to the induced sort are a level string. -/
theorem isLevel_bytes {data : List UInt8} {lower upper : Nat} (pos : 0 < data.length)
    (fits : data.length < 2 ^ idxBits - 1) (le : ∀ c ∈ data, lower ≤ c.toNat)
    (ge : ∀ c ∈ data, c.toNat ≤ upper) : IsLevel (data.map UInt8.toNat) lower (upper + 1) where
  pos := by rwa [List.length_map]
  fits := by rwa [List.length_map]
  lo_le c hc := by
    obtain ⟨b, hb, rfl⟩ := List.mem_map.mp hc
    exact le b hb
  lt_size c hc := by
    obtain ⟨b, hb, rfl⟩ := List.mem_map.mp hc
    exact Nat.lt_succ_of_le (ge b hb)

/-- The whole induced sort, from a level string of bytes. -/
theorem run_eq {data : List UInt8} {fuel lower upper : Nat}
    (level : IsLevel (data.map UInt8.toNat) lower (upper + 1)) (byte : upper + 1 < 2 ^ idxBits)
    (enough : data.length ≤ fuel) :
    ∃ SA, run fuel lower data upper = .ok SA ∧ IsSuffixArray (data.map UInt8.toNat) SA := by
  obtain ⟨f, top, pushed, named⟩ := toStack_eq level
  have short := length_lmsIdc_le level.pos
  rw [List.length_map] at short
  obtain ⟨populated, summarySA, SA', hpop, hret, hunwind, hSA'⟩ :=
    populate_eq level named (short.trans enough) []
  obtain ⟨SA, hfrom, hSA⟩ := fromStack_eq level named hSA'
  refine ⟨SA, ?_, hSA⟩
  rw [run, inc_of_lt byte, ok_bind, pushed, ok_bind, hpop, ok_bind, hret, ok_bind, hunwind, unwind,
    pure_eq_ok, ok_bind, hfrom]

end SuffixArray.InducedSorting
