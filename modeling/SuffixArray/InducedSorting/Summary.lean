import SuffixArray.InducedSorting.Naming

/-!
# The summary orders suffixes as the level string does

A letter of the summary stands for the block up to the next LMS position, and the
next letter for the block after it. Smaller names mean smaller LMS substrings;
equal names mean equal blocks, after which both comparisons move on together.
-/

namespace SuffixArray.InducedSorting

open Checked SuffixOrder

variable {s : List Nat} {lo size top : Nat} {f : Nat → Nat}

theorem mem_lmsIdc {q : Nat} : q ∈ lmsIdc s ↔ IsLMS s q ∨ q = s.length := by
  rw [lmsIdc, List.mem_append, List.mem_filter, List.mem_range, List.mem_singleton,
    decide_eq_true_eq, and_iff_right_of_imp (fun h => h.2.1)]

theorem lmsIdc_sorted (s : List Nat) : (lmsIdc s).Pairwise (· < ·) := by
  rw [lmsIdc, List.pairwise_append]
  refine ⟨List.pairwise_lt_range.filter _, List.pairwise_singleton _ _, ?_⟩
  intro p hp q hq
  rw [List.mem_singleton.mp hq]
  exact List.mem_range.mp (List.mem_of_mem_filter hp)

theorem lmsIdc_lt {p q a b : Nat} (ha : (lmsIdc s)[p]? = some a) (hb : (lmsIdc s)[q]? = some b)
    (hlt : p < q) : a < b := by
  obtain ⟨hp, rfl⟩ := List.getElem?_eq_some_iff.mp ha
  obtain ⟨hq, rfl⟩ := List.getElem?_eq_some_iff.mp hb
  exact List.pairwise_iff_getElem.mp (lmsIdc_sorted s) p q hp hq hlt

theorem mem_of_lmsIdc {p a : Nat} (ha : (lmsIdc s)[p]? = some a) : IsLMS s a ∨ a = s.length :=
  mem_lmsIdc.mp (List.mem_of_getElem? ha)

/-- The letter after that of an LMS position belongs to the next LMS position. -/
theorem lmsIdc_succ {p a : Nat} (ha : (lmsIdc s)[p]? = some a) (hlms : IsLMS s a) :
    (lmsIdc s)[p + 1]? = some (nextLMS s a) := by
  obtain ⟨hnext, hle⟩ := nextLMS_bounds hlms.2.1
  have mem : nextLMS s a ∈ lmsIdc s := by
    obtain hlt | heq := Nat.lt_or_eq_of_le hle
    · exact mem_lmsIdc.mpr (Or.inl (lmsFrom_isLMS hlt))
    · exact mem_lmsIdc.mpr (Or.inr heq)
  obtain ⟨r, hr⟩ := List.mem_iff_getElem?.mp mem
  have hlt : p < r := by
    by_contra hge
    obtain heq | hgt := Nat.eq_or_lt_of_le (Nat.le_of_not_lt hge)
    · rw [heq, ha, Option.some.injEq] at hr
      omega
    · have := lmsIdc_lt hr ha hgt
      omega
  obtain heq | hgap := Nat.eq_or_lt_of_le (Nat.succ_le_of_lt hlt)
  · rwa [← heq] at hr
  · -- An entry between the two would be an LMS position inside the block.
    have hlen := (List.getElem?_eq_some_iff.mp hr).1
    have hb := List.getElem?_eq_getElem (show p + 1 < (lmsIdc s).length by omega)
    have lower := lmsIdc_lt ha hb (Nat.lt_succ_self p)
    have upper := lmsIdc_lt hb hr hgap
    obtain hmid | hmid := mem_of_lmsIdc hb
    · exact absurd hmid (not_isLMS_of_lt_lmsFrom (Nat.succ_le_of_lt lower) upper)
    · omega

theorem summary_drop_eq (f : Nat → Nat) {p a : Nat} (ha : (lmsIdc s)[p]? = some a) :
    ((lmsIdc s).map f).drop p = f a :: ((lmsIdc s).map f).drop (p + 1) := by
  obtain ⟨hp, rfl⟩ := List.getElem?_eq_some_iff.mp ha
  rw [List.drop_eq_getElem_cons (by simpa using hp), List.getElem_map]

namespace Named

theorem pos_iff (h : Named s f top) {p a : Nat} (ha : (lmsIdc s)[p]? = some a) :
    0 < f a ↔ IsLMS s a := by
  obtain hlms | rfl := mem_of_lmsIdc ha
  · exact iff_of_true (h.bounds a hlms).1 hlms
  · rw [h.sentinel]
    exact iff_of_false (Nat.lt_irrefl 0) (fun hlms => Nat.lt_irrefl _ hlms.2.1)

/-- One direction; the suffixes of the summary are followed letter by letter. -/
theorem drop_lt (h : Named s f top) {p q a b : Nat} (ha : (lmsIdc s)[p]? = some a)
    (hb : (lmsIdc s)[q]? = some b)
    (hlt : ((lmsIdc s).map f).drop p < ((lmsIdc s).map f).drop q) : s.drop a < s.drop b := by
  induction hd : (lmsIdc s).length - p generalizing p q a b with
  | zero =>
      have := (List.getElem?_eq_some_iff.mp ha).1
      omega
  | succ d ih =>
      rw [summary_drop_eq f ha, summary_drop_eq f hb, List.cons_lt_cons_iff] at hlt
      obtain hname | ⟨same, hrest⟩ := hlt
      · have hbl : IsLMS s b := (h.pos_iff hb).mp (by omega)
        obtain hal | rfl := mem_of_lmsIdc ha
        · exact drop_lt_of_lmsSubstring_lt hal.2.1 hbl.2.1 (h.lt a b hal hbl hname)
        · exact drop_length_lt hbl.2.1
      · by_cases hal : IsLMS s a
        · have hbl : IsLMS s b := (h.pos_iff hb).mp (same ▸ (h.pos_iff ha).mpr hal)
          rw [drop_lt_drop_iff_of_block hal.2.1 hbl.2.1 (h.block_eq a b hal hbl same)]
          exact ih (lmsIdc_succ ha hal) (lmsIdc_succ hb hbl) hrest (by omega)
        · -- Both letters are the sentinel, so both positions are the last one.
          have hbl : ¬ IsLMS s b :=
            fun hbl => hal ((h.pos_iff ha).mp (same ▸ (h.pos_iff hb).mpr hbl))
          have hae := (mem_of_lmsIdc ha).resolve_left hal
          have hbe := (mem_of_lmsIdc hb).resolve_left hbl
          have nodup : (lmsIdc s).Nodup := (lmsIdc_sorted s).imp Nat.ne_of_lt
          have hpq : p = q := (List.getElem?_inj (List.getElem?_eq_some_iff.mp ha).1 nodup).mp
            (ha.trans (hae.trans hbe.symm ▸ hb.symm))
          exact absurd (hpq ▸ hrest) (lt_irrefl _)

theorem drop_lt_iff (h : Named s f top) {p q a b : Nat} (ha : (lmsIdc s)[p]? = some a)
    (hb : (lmsIdc s)[q]? = some b) :
    ((lmsIdc s).map f).drop p < ((lmsIdc s).map f).drop q ↔ s.drop a < s.drop b := by
  refine ⟨h.drop_lt ha hb, fun hlt => ?_⟩
  obtain hless | heq | hgreater := lt_trichotomy (((lmsIdc s).map f).drop p)
    (((lmsIdc s).map f).drop q)
  · exact hless
  · have hp := (List.getElem?_eq_some_iff.mp ha).1
    have hq := (List.getElem?_eq_some_iff.mp hb).1
    have hpq : p = q := drop_injOn (by simpa using hp.le) (by simpa using hq.le) heq
    subst hpq
    exact absurd (Option.some.inj (ha.symm.trans hb) ▸ hlt) (lt_irrefl _)
  · exact absurd (h.drop_lt hb ha hgreater) (lt_asymm hlt)

end Named

/-- The reduction of every level string preserves the order of suffixes. -/
theorem toStack_preserves_order (level : IsLevel s lo size) :
    ∃ pushed, toStack s size lo = .ok pushed ∧
      pushed.element.summIdc = (List.range s.length).filter (IsLMS s) ++ [s.length] ∧
      pushed.summary.length = pushed.element.summIdc.length ∧
      ∀ p q (hp : p < pushed.element.summIdc.length) (hq : q < pushed.element.summIdc.length),
        pushed.summary.drop p < pushed.summary.drop q ↔
          s.drop pushed.element.summIdc[p] < s.drop pushed.element.summIdc[q] := by
  obtain ⟨f, top, run, named⟩ := toStack_eq level
  refine ⟨_, run, rfl, List.length_map _, fun p q hp hq => ?_⟩
  exact named.drop_lt_iff (List.getElem?_eq_getElem hp) (List.getElem?_eq_getElem hq)

theorem toStack_preserves_order_banana : ∃ pushed, toStack [1, 0, 2, 0, 2, 0] 3 0 = .ok pushed ∧
    pushed.element.summIdc = [1, 3, 6] ∧ pushed.summary.length = 3 := by
  have level : IsLevel [1, 0, 2, 0, 2, 0] 0 3 := ⟨by decide, by decide, by decide, by decide⟩
  obtain ⟨pushed, run, idc, length, _⟩ := toStack_preserves_order level
  have lms : (List.range 6).filter (IsLMS [1, 0, 2, 0, 2, 0]) ++ [6] = [1, 3, 6] := by decide
  exact ⟨pushed, run, idc.trans lms, by rw [length, idc.trans lms]; rfl⟩

end SuffixArray.InducedSorting
