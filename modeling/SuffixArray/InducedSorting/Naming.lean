import SuffixArray.InducedSorting.Guess

/-!
# Names for the LMS positions

`summarizeSA` walks the guess and compares the block of each LMS position with the
one before it; a block ends before the next LMS position. Within the sorted guess
this is enough: equal LMS substrings are never separated by another block, so they
share a name, while a change of block is a change of LMS substring.
-/

namespace SuffixArray.InducedSorting

open Checked SuffixOrder

variable {s g : List Nat} {lo size : Nat}

/-- `all_lms` in closed form. -/
def allLmsOf (s : List Nat) : List Nat :=
  (List.range (s.length + 1)).map (fun i => if IsLMS s i then nextLMS s i else 0)

theorem makeAllLms_eq (hpos : 0 < s.length) : makeAllLms s (typesOf s) = .ok (allLmsOf s) := by
  let inv (k : Nat) (state : List Nat × Nat) : Prop :=
    state = ((List.range (s.length + 1)).map (fun i =>
      if k < i ∧ IsLMS s i then nextLMS s i else 0), lmsFrom s (k + 1))
  have init : inv (s.length - 1) (List.replicate (s.length + 1) 0, s.length) := by
    refine Prod.ext ?_ ?_
    · rw [replicate_eq_table]
      refine table_congr (fun i _ => ?_)
      rw [if_neg]
      rintro ⟨hlt, hlms⟩
      have := hlms.2.1
      omega
    · exact (lmsFrom_of_le (by omega)).symm
  have step : ∀ i state, 0 < i → i ≤ s.length - 1 → inv i state → ∃ t,
      allLmsStep (typesOf s) i state = .ok t ∧ inv (i - 1) t := by
    rintro i _ hi hle rfl
    have hprev : i - 1 + 1 = i := Nat.sub_add_cancel hi
    rw [allLmsStep, idxIsLMSC_eq hi (by omega), ok_bind]
    by_cases hlms : IsLMS s i
    · rw [if_pos (decide_eq_true hlms), store_table _ (by omega), ok_bind, pure_eq_ok]
      refine ⟨_, rfl, Prod.ext (table_congr fun j _ => ?_) ?_⟩
      · by_cases same : j = i
        · subst same
          rw [if_pos rfl, if_pos ⟨by omega, hlms⟩]
          rfl
        · rw [if_neg same]
          have : i < j ↔ i - 1 < j := by omega
          simp only [this]
      · show i = lmsFrom s (i - 1 + 1)
        rw [hprev, lmsFrom_of_isLMS hlms]
    · rw [if_neg (by simpa using hlms)]
      refine ⟨_, rfl, Prod.ext (table_congr fun j _ => ?_) ?_⟩
      · by_cases same : j = i
        · subst same
          rw [if_neg (fun h => hlms h.2), if_neg (fun h => hlms h.2)]
        · have : i < j ↔ i - 1 < j := by omega
          simp only [this]
      · show lmsFrom s (i + 1) = lmsFrom s (i - 1 + 1)
        rw [hprev, lmsFrom_of_not_isLMS (by omega) hlms]
  obtain ⟨_, run, rfl⟩ := forDown_ok inv (Nat.zero_le _) init step
  rw [makeAllLms, sub_of_le hpos, ok_bind, run, ok_bind, pure_eq_ok]
  refine congrArg Except.ok (table_congr fun i _ => ?_)
  have : (0 < i ∧ IsLMS s i) ↔ IsLMS s i := and_iff_right_of_imp (fun h => h.1)
  simp only [this]

/-- The LMS positions among the first `i` entries of the guess. -/
def Seen (s g : List Nat) (i q : Nat) : Prop := IsLMS s q ∧ ∃ k, k < i ∧ g[k]? = some q

theorem seen_succ {i q p : Nat} (now : g[i]? = some q) :
    Seen s g (i + 1) p ↔ Seen s g i p ∨ IsLMS s p ∧ p = q := by
  constructor
  · rintro ⟨hlms, k, hk, hp⟩
    obtain rfl | hlt := Nat.eq_or_lt_of_le (Nat.le_of_lt_succ hk)
    · exact Or.inr ⟨hlms, Option.some.inj (hp.symm.trans now)⟩
    · exact Or.inl ⟨hlms, k, hlt, hp⟩
  · rintro (⟨hlms, k, hk, hp⟩ | ⟨hlms, rfl⟩)
    · exact ⟨hlms, k, by omega, hp⟩
    · exact ⟨hlms, i, Nat.lt_succ_self i, now⟩

/-- After the first `i` entries the positions in sight are named up to `cur`, and
`fir` up to `sec` is the block named last. -/
structure PartlyNamed (s g : List Nat) (i : Nat) (f : Nat → Nat) (cur fir sec : Nat) : Prop where
  cur_lt : cur < i
  sentinel : f s.length = 0
  other : ∀ q, q < s.length → ¬ IsLMS s q → f q = invalid
  bounds : ∀ q, Seen s g i q → 0 < f q ∧ f q ≤ cur
  onto : ∀ c, 0 < c → c ≤ cur → ∃ q, Seen s g i q ∧ f q = c
  block_eq : ∀ p q, Seen s g i p → Seen s g i q → f p = f q → block s p = block s q
  lt : ∀ p q, Seen s g i p → Seen s g i q → f p < f q → lmsSubstring s p < lmsSubstring s q
  last : cur = 0 ∧ fir = s.length ∧ sec = s.length ∨
    Seen s g i fir ∧ sec = nextLMS s fir ∧ f fir = cur

namespace PartlyNamed

variable {i q cur fir sec : Nat} {f : Nat → Nat}

theorem skip (h : PartlyNamed s g i f cur fir sec) (now : g[i]? = some q) (hq : ¬ IsLMS s q) :
    PartlyNamed s g (i + 1) f cur fir sec := by
  have same : ∀ p, Seen s g (i + 1) p ↔ Seen s g i p := by
    intro p
    rw [seen_succ now, or_iff_left]
    rintro ⟨hlms, rfl⟩
    exact hq hlms
  refine ⟨Nat.lt_succ_of_lt h.cur_lt, h.sentinel, h.other, ?_, ?_, ?_, ?_, ?_⟩
  · simpa only [same] using h.bounds
  · simpa only [same] using h.onto
  · simpa only [same] using h.block_eq
  · simpa only [same] using h.lt
  · simpa only [same] using h.last

/-- A name for a new position, given how it compares with the names so far. -/
theorem name (h : PartlyNamed s g i f cur fir sec) (now : g[i]? = some q) (hq : IsLMS s q)
    (new : ¬ Seen s g i q) {c : Nat} (hpos : 0 < c) (lower : cur ≤ c) (upper : c ≤ cur + 1)
    (equal : ∀ p, Seen s g i p → f p = c → block s p = block s q)
    (less : ∀ p, Seen s g i p → f p < c → lmsSubstring s p < lmsSubstring s q) :
    PartlyNamed s g (i + 1) (fun p => if p = q then c else f p) c q (nextLMS s q) := by
  have distinct : ∀ {p}, Seen s g i p → p ≠ q := by
    rintro p old rfl
    exact new old
  have split : ∀ p, Seen s g (i + 1) p → p = q ∨ p ≠ q ∧ Seen s g i p := by
    intro p hp
    obtain old | ⟨_, same⟩ := (seen_succ now).mp hp
    · exact Or.inr ⟨distinct old, old⟩
    · exact Or.inl same
  have seenNow : Seen s g (i + 1) q := (seen_succ now).mpr (Or.inr ⟨hq, rfl⟩)
  have hlt := hq.2.1
  have hcur := h.cur_lt
  refine ⟨by omega, ?_, ?_, ?_, ?_, ?_, ?_, Or.inr ⟨seenNow, rfl, if_pos rfl⟩⟩
  · rw [if_neg (by omega), h.sentinel]
  · intro p hp hlms
    rw [if_neg (fun same : p = q => hlms (same ▸ hq)), h.other p hp hlms]
  · intro p hp
    obtain rfl | ⟨hne, old⟩ := split p hp
    · rw [if_pos rfl]
      exact ⟨hpos, Nat.le_refl c⟩
    · rw [if_neg hne]
      have := h.bounds p old
      exact ⟨this.1, by omega⟩
  · intro d hd hle
    obtain rfl | hdlt := Nat.eq_or_lt_of_le hle
    · exact ⟨q, seenNow, if_pos rfl⟩
    · obtain ⟨p, old, hp⟩ := h.onto d hd (by omega)
      exact ⟨p, (seen_succ now).mpr (Or.inl old), by rwa [if_neg (distinct old)]⟩
  · intro p p' hp hp' same
    obtain rfl | ⟨hne, old⟩ := split p hp
    · obtain rfl | ⟨hne', old'⟩ := split p' hp'
      · rfl
      · rw [if_pos rfl, if_neg hne'] at same
        exact (equal p' old' same.symm).symm
    · rw [if_neg hne] at same
      obtain rfl | ⟨hne', old'⟩ := split p' hp'
      · rw [if_pos rfl] at same
        exact equal p old same
      · rw [if_neg hne'] at same
        exact h.block_eq p p' old old' same
  · intro p p' hp hp' hlt'
    obtain rfl | ⟨hne, old⟩ := split p hp
    · obtain rfl | ⟨hne', old'⟩ := split p' hp'
      · exact absurd hlt' (Nat.lt_irrefl _)
      · rw [if_pos rfl, if_neg hne'] at hlt'
        have := (h.bounds p' old').2
        omega
    · rw [if_neg hne] at hlt'
      obtain rfl | ⟨hne', old'⟩ := split p' hp'
      · rw [if_pos rfl] at hlt'
        exact less p old hlt'
      · rw [if_neg hne'] at hlt'
        exact h.lt p p' old old' hlt'

/-- The first LMS position in sight gets the name 1. -/
theorem name_first (h : PartlyNamed s g i f 0 fir sec) (now : g[i]? = some q) (hq : IsLMS s q) :
    PartlyNamed s g (i + 1) (fun p => if p = q then 1 else f p) 1 q (nextLMS s q) := by
  have none : ∀ p, ¬ Seen s g i p := fun p hp => by
    have := h.bounds p hp
    omega
  exact h.name now hq (none q) Nat.one_pos (Nat.zero_le _) (Nat.le_refl _)
    (fun p hp => absurd hp (none p)) (fun p hp => absurd hp (none p))

section Later

variable (h : PartlyNamed s g i f cur fir sec) (now : g[i]? = some q) (hq : IsLMS s q)
  (new : ¬ Seen s g i q) (before : ∀ p, Seen s g i p → lmsSubstring s p ≤ lmsSubstring s q)
  (hfir : Seen s g i fir) (hname : f fir = cur)

include h now hq new before hfir hname

/-- The same block again gets the same name. -/
theorem name_again (same : block s fir = block s q) :
    PartlyNamed s g (i + 1) (fun p => if p = q then cur else f p) cur q (nextLMS s q) := by
  apply h.name now hq new (hname ▸ (h.bounds fir hfir).1) (Nat.le_refl _) (Nat.le_succ _)
  · intro p hp heq
    exact (h.block_eq p fir hp hfir (heq.trans hname.symm)).trans same
  · intro p hp hless
    exact lt_of_lt_of_le (h.lt p fir hp hfir (hname.symm ▸ hless)) (before fir hfir)

/-- Another block is greater than all before and gets the next name. -/
theorem name_next (differs : block s fir ≠ block s q) :
    PartlyNamed s g (i + 1) (fun p => if p = q then cur + 1 else f p) (cur + 1) q
      (nextLMS s q) := by
  apply h.name now hq new (Nat.succ_pos _) (Nat.le_succ _) (Nat.le_refl _)
  · intro p hp heq
    have := (h.bounds p hp).2
    omega
  · intro p hp _
    apply lt_of_le_of_ne (before p hp)
    intro heq
    have hblock := block_eq_of_lmsSubstring_eq hp.1.2.1 hq.2.1 heq
    obtain hcur | hless := Nat.eq_or_lt_of_le (h.bounds p hp).2
    · exact differs ((h.block_eq p fir hp hfir (hcur.trans hname.symm)).symm.trans hblock)
    · have := h.lt p fir hp hfir (hname.symm ▸ hless)
      exact absurd (lt_of_lt_of_le this (before fir hfir)) (heq ▸ lt_irrefl _)

end Later

end PartlyNamed

theorem equalRanges_block {p q : Nat} (hp : p < s.length) (hq : q < s.length) :
    equalRanges s p (nextLMS s p) q (nextLMS s q) = .ok (decide (block s p = block s q)) :=
  equalRanges_eq (nextLMS_bounds hp).1.le (nextLMS_bounds hp).2 (nextLMS_bounds hq).1.le
    (nextLMS_bounds hq).2

/-- Before the first name the empty range behind the string is compared. -/
theorem equalRanges_empty {q : Nat} (hq : q < s.length) :
    equalRanges s s.length s.length q (nextLMS s q) = .ok false := by
  have bounds := nextLMS_bounds hq
  rw [equalRanges, if_neg (by omega), pure_eq_ok]

/-- One iteration of the naming loop. -/
theorem nameStep_eq (level : IsLevel s lo size) (sorted : GuessSorted s g) {i cur fir sec : Nat}
    {f : Nat → Nat} (hi : i < g.length) (h : PartlyNamed s g i f cur fir sec) :
    ∃ f' cur' fir' sec', nameStep s g (allLmsOf s) i
        ⟨cur, (List.range (s.length + 1)).map f, fir, sec⟩ =
      .ok ⟨cur', (List.range (s.length + 1)).map f', fir', sec'⟩ ∧
      PartlyNamed s g (i + 1) f' cur' fir' sec' := by
  have length : g.length = s.length + 1 := by rw [sorted.perm.length_eq, List.length_range]
  have now := List.getElem?_eq_getElem hi
  set q := g[i] with hq
  have hle : q < s.length + 1 := List.mem_range.mp (sorted.perm.mem_iff.mp (List.getElem_mem hi))
  rw [nameStep, load_eq_ok.mpr now, ok_bind, allLmsOf, load_table _ hle, ok_bind]
  by_cases hlms : IsLMS s q
  · have hlt := hlms.2.1
    have hne : nextLMS s q ≠ 0 := Nat.ne_of_gt (Nat.zero_lt_of_lt (nextLMS_bounds hlt).1)
    have fresh : ¬ Seen s g i q := by
      rintro ⟨_, k, hk, hkq⟩
      have nodup := sorted.perm.nodup_iff.mpr List.nodup_range
      exact absurd ((List.getElem?_inj (by omega) nodup).mp (hkq.trans now.symm)) (Nat.ne_of_lt hk)
    have before : ∀ p, Seen s g i p → lmsSubstring s p ≤ lmsSubstring s q := by
      rintro p ⟨_, k, hk, hkp⟩
      obtain ⟨hklt, rfl⟩ := List.getElem?_eq_some_iff.mp hkp
      exact List.pairwise_iff_getElem.mp sorted.substrings k i hklt hi hk
    have hfits : cur + 1 < 2 ^ idxBits := level.lt_pow (by have := h.cur_lt; omega)
    rw [if_pos hlms, if_pos hne]
    obtain ⟨rfl, rfl, rfl⟩ | ⟨hfir, rfl, hname⟩ := h.last
    · rw [equalRanges_empty hlt, ok_bind, if_neg Bool.false_ne_true, inc_of_lt hfits]
      simp only [ok_bind, store_table _ hle, pure_eq_ok]
      exact ⟨_, _, _, _, rfl, h.name_first now hlms⟩
    · rw [equalRanges_block hfir.1.2.1 hlt, ok_bind]
      by_cases same : block s fir = block s q
      · rw [decide_eq_true same, if_pos rfl]
        simp only [ok_bind, store_table _ hle, pure_eq_ok]
        exact ⟨_, _, _, _, rfl, h.name_again now hlms fresh before hfir hname same⟩
      · rw [decide_eq_false same, if_neg Bool.false_ne_true, inc_of_lt hfits]
        simp only [ok_bind, store_table _ hle, pure_eq_ok]
        exact ⟨_, _, _, _, rfl, h.name_next now hlms fresh before hfir hname same⟩
  · rw [if_neg hlms, if_neg (not_not.mpr rfl)]
    exact ⟨_, _, _, _, rfl, h.skip now hlms⟩

/-- What `summarizeSA` hands to the next level: names from 1 to `top` for the LMS
positions, 0 for the empty suffix. -/
structure Named (s : List Nat) (f : Nat → Nat) (top : Nat) : Prop where
  top_le : top ≤ s.length
  sentinel : f s.length = 0
  other : ∀ q, q < s.length → ¬ IsLMS s q → f q = invalid
  bounds : ∀ q, IsLMS s q → 0 < f q ∧ f q ≤ top
  onto : ∀ c, 0 < c → c ≤ top → ∃ q, IsLMS s q ∧ f q = c
  block_eq : ∀ p q, IsLMS s p → IsLMS s q → f p = f q → block s p = block s q
  lt : ∀ p q, IsLMS s p → IsLMS s q → f p < f q → lmsSubstring s p < lmsSubstring s q

theorem PartlyNamed.named (sorted : GuessSorted s g) {f : Nat → Nat} {top fir sec : Nat}
    (h : PartlyNamed s g (s.length + 1) f top fir sec) : Named s f top := by
  have length : g.length = s.length + 1 := by rw [sorted.perm.length_eq, List.length_range]
  have all : ∀ q, Seen s g (s.length + 1) q ↔ IsLMS s q := by
    refine fun q => ⟨And.left, fun hlms => ⟨hlms, ?_⟩⟩
    have := hlms.2.1
    obtain ⟨k, hk, hkq⟩ := List.mem_iff_getElem.mp
      (sorted.perm.mem_iff.mpr (List.mem_range.mpr (by omega)) : q ∈ g)
    exact ⟨k, length ▸ hk, List.getElem?_eq_some_iff.mpr ⟨hk, hkq⟩⟩
  refine ⟨Nat.le_of_lt_succ h.cur_lt, h.sentinel, h.other, ?_, ?_, ?_, ?_⟩
  · simpa only [all] using h.bounds
  · simpa only [all] using h.onto
  · simpa only [all] using h.block_eq
  · simpa only [all] using h.lt

/-- The positions behind the letters of the summary. -/
def lmsIdc (s : List Nat) : List Nat := (List.range s.length).filter (IsLMS s) ++ [s.length]

theorem collectNames_eq (level : IsLevel s lo size) {f : Nat → Nat} {top : Nat}
    (h : Named s f top) : collectNames ((List.range (s.length + 1)).map f) =
      .ok ((lmsIdc s).map f, lmsIdc s) := by
  have named : ∀ q, q < s.length → decide (f q ≠ invalid) = decide (IsLMS s q) := by
    intro q hq
    by_cases hlms : IsLMS s q
    · have := (h.bounds q hlms).2
      have := level.lt_invalid (this.trans h.top_le)
      rw [decide_eq_true hlms, decide_eq_true (Nat.ne_of_lt this)]
    · rw [decide_eq_false hlms, decide_eq_false (not_not.mpr (h.other q hq hlms))]
  let collected (k : Nat) : List Nat := (List.range k).filter (fun q => decide (f q ≠ invalid))
  have all : collected (s.length + 1) = lmsIdc s := by
    have last : decide (f s.length ≠ invalid) = true := by
      rw [h.sentinel]
      exact decide_eq_true (Nat.ne_of_lt (level.lt_invalid (Nat.zero_le _)))
    rw [lmsIdc, List.filter_congr (fun q hq => (named q (List.mem_range.mp hq)).symm)]
    simp only [collected, List.range_succ, List.filter_append, List.filter_cons, last, if_true,
      List.filter_nil]
  let inv (k : Nat) (state : List Nat × List Nat) : Prop :=
    state = ((collected k).map f, collected k)
  have step : ∀ i state, 0 ≤ i → i < s.length + 1 → inv i state → ∃ t,
      collectStep ((List.range (s.length + 1)).map f) i state = .ok t ∧ inv (i + 1) t := by
    rintro i _ _ hi rfl
    refine ⟨_, ?_, rfl⟩
    rw [collectStep, load_table f hi, ok_bind]
    simp only [collected, List.range_succ, List.filter_append, List.filter_cons, List.filter_nil]
    by_cases hname : f i = invalid
    · simp only [hname, ne_eq, not_true, if_false, decide_false, Bool.false_eq_true, pure_eq_ok,
        List.append_nil]
    · simp only [hname, ne_eq, not_false_eq_true, if_true, decide_true, pure_eq_ok,
        List.map_append, List.map_cons, List.map_nil]
  have fits : s.length + 1 < 2 ^ idxBits := Nat.lt_of_le_of_lt level.fits (by decide)
  have init : inv 0 ([], []) := rfl
  obtain ⟨_, run, rfl⟩ := forUp_ok inv (Nat.zero_le _) fits init step
  rw [collectNames, List.length_map, List.length_range, run, all]

theorem summarizeSA_eq (level : IsLevel s lo size) (sorted : GuessSorted s g) :
    ∃ f top, summarizeSA s g (typesOf s) = .ok ⟨(lmsIdc s).map f, top + 1, lmsIdc s⟩ ∧
      Named s f top := by
  have length : g.length = s.length + 1 := by rw [sorted.perm.length_eq, List.length_range]
  let inv (i : Nat) (state : Naming) : Prop := ∃ f cur fir sec,
    state = ⟨cur, (List.range (s.length + 1)).map f, fir, sec⟩ ∧ PartlyNamed s g i f cur fir sec
  have init : inv 1 ⟨0, (List.range (s.length + 1)).map
      (fun q => if q = s.length then 0 else invalid), s.length, s.length⟩ := by
    have none : ∀ q, ¬ Seen s g 1 q := by
      rintro q ⟨hlms, k, hk, hkq⟩
      obtain rfl := Nat.lt_one_iff.mp hk
      obtain rfl : s.length = q := Option.some.inj (sorted.head.symm.trans hkq)
      exact Nat.lt_irrefl _ hlms.2.1
    refine ⟨_, _, _, _, rfl, Nat.one_pos, if_pos rfl, fun q hq _ => if_neg (Nat.ne_of_lt hq), ?_,
      ?_, ?_, ?_, Or.inl ⟨rfl, rfl, rfl⟩⟩
    · exact fun q hq => absurd hq (none q)
    · intro c hc hle
      omega
    · exact fun p q hp => absurd hp (none p)
    · exact fun p q hp => absurd hp (none p)
  have step : ∀ i state, 1 ≤ i → i < g.length → inv i state → ∃ t,
      nameStep s g (allLmsOf s) i state = .ok t ∧ inv (i + 1) t := by
    rintro i _ _ hi ⟨f, cur, fir, sec, rfl, h⟩
    obtain ⟨f', cur', fir', sec', hstep, h'⟩ := nameStep_eq level sorted hi h
    exact ⟨_, hstep, f', cur', fir', sec', rfl, h'⟩
  have fits : g.length < 2 ^ idxBits := length ▸ Nat.lt_of_le_of_lt level.fits (by decide)
  obtain ⟨_, run, f, top, fir, sec, rfl, named⟩ :=
    forUp_ok inv (by omega : 1 ≤ g.length) fits init step
  have named := (length ▸ named : PartlyNamed s g (s.length + 1) f top fir sec).named sorted
  refine ⟨f, top, ?_, named⟩
  have fits : top + 1 < 2 ^ idxBits :=
    Nat.lt_of_le_of_lt (Nat.succ_le_of_lt (level.lt_invalid named.top_le)) (by decide)
  rw [summarizeSA, load_eq_ok.mpr sorted.head, ok_bind, replicate_eq_table,
    store_table _ (Nat.lt_succ_self _), ok_bind, makeAllLms_eq level.pos, ok_bind, run, ok_bind,
    collectNames_eq level named, ok_bind, inc_of_lt fits, ok_bind, pure_eq_ok]

/-- All of `toStack` for a level string. -/
theorem toStack_eq (level : IsLevel s lo size) : ∃ f top,
    toStack s size lo = .ok ⟨⟨s, typesOf s, lmsIdc s, countsOf s lo size⟩, (lmsIdc s).map f,
      ((lmsIdc s).map f).length, top + 1⟩ ∧ Named s f top := by
  obtain ⟨g, run, htypes, hcounts, sorted⟩ := guess_eq level
  obtain ⟨f, top, summarized, named⟩ := summarizeSA_eq level sorted
  refine ⟨f, top, ?_, named⟩
  rw [toStack, run, ok_bind, htypes, hcounts, summarized, ok_bind, pure_eq_ok]

end SuffixArray.InducedSorting
