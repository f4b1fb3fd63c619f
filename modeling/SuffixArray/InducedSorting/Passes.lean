import SuffixArray.InducedScan
import SuffixArray.InducedSorting.Buckets

/-!
# The two induce passes

`lInduceSort` and `sInduceSort` are induced scans: the first visits the slots from
left to right and places L-type positions, the second visits them from right to
left and places S-type positions. The concrete arrays are the tables of the
abstract cells, with `invalid` for an empty one, so each visit of the source is
one visit of the scan.

The premises on the seeds are the same for both uses of the passes. What
differs is the relation `R` in which the seeds of a bucket stand.
-/

namespace SuffixArray.InducedSorting

open Checked SuffixOrder InducedScan

/-- The slots of the L-type positions with character `c`. -/
def InLPart (s : List Nat) (c i : Nat) : Prop :=
  below s c < i ∧ i ≤ below s c + lCount s c

/-- The slots of the S-type positions with character `c`. -/
def InSPart (s : List Nat) (c i : Nat) : Prop :=
  below s c + lCount s c < i ∧ i ≤ upTo s c

section Parts

variable {s : List Nat} {c d i : Nat}

theorem bucket_total (s : List Nat) (c : Nat) :
    below s c + lCount s c + sCount s c = upTo s c := by
  rw [Nat.add_assoc, lCount_add_sCount, below_add_countOf]

theorem InLPart.bounds (h : InLPart s c i) : below s c < i ∧ i ≤ upTo s c := by
  have := bucket_total s c
  exact ⟨h.1, h.2.trans (by omega)⟩

theorem InSPart.bounds (h : InSPart s c i) : below s c < i ∧ i ≤ upTo s c :=
  ⟨Nat.lt_of_le_of_lt (Nat.le_add_right _ _) h.1, h.2⟩

/-- Buckets of different characters do not overlap. -/
theorem bucket_unique (hc : below s c < i ∧ i ≤ upTo s c) (hd : below s d < i ∧ i ≤ upTo s d) :
    c = d := by
  obtain hlt | heq | hgt := Nat.lt_trichotomy c d
  · have := upTo_le_below s hlt
    omega
  · exact heq
  · have := upTo_le_below s hgt
    omega

theorem InLPart.not_inSPart (h : InLPart s c i) : ¬ InSPart s d i := by
  intro h'
  obtain rfl := bucket_unique h.bounds h'.bounds
  exact absurd h'.1 (Nat.not_lt_of_le h.2)

theorem bucket_le_length (h : below s c < i ∧ i ≤ upTo s c) : 0 < i ∧ i ≤ s.length :=
  ⟨Nat.lt_of_le_of_lt (Nat.zero_le _) h.1, h.2.trans (upTo_le_length s c)⟩

/-- Slots of different buckets are ordered by character. -/
theorem chr_le_of_slot_lt {j : Nat} (hc : below s c < i ∧ i ≤ upTo s c)
    (hd : below s d < j ∧ j ≤ upTo s d) (hlt : i < j) : c ≤ d := by
  by_contra hgt
  have := upTo_le_below s (Nat.lt_of_not_le hgt)
  omega

end Parts

/-- The array after the LMS positions have been dropped at the tails: the empty
suffix in slot 0, each LMS position once in the S-part of its bucket, and the seeds
of one bucket in the relation `R`. -/
structure Seeds (s : List Nat) (R : Nat → Nat → Prop) (cell : Nat → Option Nat) : Prop where
  zero : cell 0 = some s.length
  lms : ∀ q, IsLMS s q → ∃ i, InSPart s (chr s q) i ∧ cell i = some q
  only : ∀ i e, 0 < i → cell i = some e → IsLMS s e ∧ InSPart s (chr s e) i
  unique : ∀ i i' e, cell i = some e → cell i' = some e → i = i'
  order : ∀ i i' e e', 0 < i → i < i' → cell i = some e → cell i' = some e' →
    chr s e = chr s e' → R e e'

/-- The array after the L pass. Two L-type positions of a bucket stand in the order
of their successors. -/
structure AfterL (s : List Nat) (R : Nat → Nat → Prop) (cell : Nat → Option Nat) : Prop where
  zero : cell 0 = some s.length
  placed : ∀ j, j < s.length → ¬ IsS s j → ∃ i, InLPart s (chr s j) i ∧ cell i = some j
  only : ∀ i e, 0 < i → i ≤ s.length → cell i = some e → e < s.length ∧
    (¬ IsS s e ∧ InLPart s (chr s e) i ∨ IsLMS s e ∧ InSPart s (chr s e) i)
  unique : ∀ i i' e, i ≤ s.length → i' ≤ s.length → cell i = some e → cell i' = some e → i = i'
  seeds : ∀ i i' e e', 0 < i → i < i' → i' ≤ s.length → cell i = some e → cell i' = some e' →
    IsLMS s e → IsLMS s e' → chr s e = chr s e' → R e e'
  order : ∀ i i' e e', 0 < i → i < i' → i' ≤ s.length → cell i = some e → cell i' = some e' →
    ¬ IsS s e → ¬ IsS s e' → chr s e = chr s e' →
    ∃ k k', k < k' ∧ k' ≤ s.length ∧ cell k = some (e + 1) ∧ cell k' = some (e' + 1)

/-- The array after the S pass. The L-parts are as the L pass left them, and two
S-type positions of a bucket stand in the order of their successors. -/
structure AfterS (s : List Nat) (before cell : Nat → Option Nat) : Prop where
  zero : cell 0 = some s.length
  placed : ∀ j, j < s.length → IsS s j → ∃ i, InSPart s (chr s j) i ∧ cell i = some j
  kept : ∀ c i, InLPart s c i → cell i = before i
  only : ∀ i e, 0 < i → i ≤ s.length → cell i = some e → e < s.length ∧
    (¬ IsS s e ∧ InLPart s (chr s e) i ∨ IsS s e ∧ InSPart s (chr s e) i)
  order : ∀ i i' e e', 0 < i → i < i' → i' ≤ s.length → cell i = some e → cell i' = some e' →
    IsS s e → IsS s e' → chr s e = chr s e' →
    ∃ k k', k < k' ∧ k' ≤ s.length ∧ cell k = some (e + 1) ∧ cell k' = some (e' + 1)

section Layouts

variable (s : List Nat) (cell : Nat → Option Nat)

/-- The L pass: cells are slots. -/
def lLayout : Layout Nat where
  size := s.length
  cells := s.length + 1
  chosen j := decide (j < s.length ∧ ¬ IsS s j)
  key := chr s
  first c := below s c + 1
  init := cell

/-- The S pass: cells are slots counted from the right. -/
def sLayout : Layout Nat where
  size := s.length
  cells := s.length + 1
  chosen j := decide (j < s.length ∧ IsS s j)
  key := chr s
  first c := s.length - upTo s c
  init t := if t ≤ s.length then cell (s.length - t) else none

theorem lLayout_quota (c : Nat) : (lLayout s cell).quota c = lCount s c := by
  rw [Layout.quota, lCount]
  congr 1
  ext j
  simp only [Layout.members, lLayout, positions, Finset.mem_filter, Finset.mem_range,
    decide_eq_true_eq]
  tauto

theorem sLayout_quota (c : Nat) : (sLayout s cell).quota c = sCount s c := by
  rw [Layout.quota, sCount]
  congr 1
  ext j
  simp only [Layout.members, sLayout, positions, Finset.mem_filter, Finset.mem_range,
    decide_eq_true_eq]
  tauto

theorem lLayout_inRegion {c i : Nat} : (lLayout s cell).InRegion c i ↔ InLPart s c i := by
  rw [Layout.InRegion, lLayout_quota, InLPart]
  simp only [lLayout]
  omega

/-- A region of the S pass, mirrored, is the S-part of the bucket. -/
theorem sLayout_inRegion {c t : Nat} :
    (sLayout s cell).InRegion c t ↔ t ≤ s.length ∧ InSPart s c (s.length - t) := by
  rw [Layout.InRegion, sLayout_quota, InSPart]
  have := upTo_le_length s c
  have := bucket_total s c
  simp only [sLayout]
  omega

end Layouts

section Scans

variable {s : List Nat} {R : Nat → Nat → Prop} {cell : Nat → Option Nat}

theorem lLayout_feed (h : Seeds s R cell) {j : Nat} (hj : j < s.length) (hl : ¬ IsS s j) :
    (∃ i, i < below s (chr s j) + 1 ∧ (lLayout s cell).Free i ∧ cell i = some (j + 1)) ∨
    ((j + 1 < s.length ∧ ¬ IsS s (j + 1)) ∧ chr s (j + 1) = chr s j) ∨
    ((j + 1 < s.length ∧ ¬ IsS s (j + 1)) ∧ ∀ i, (lLayout s cell).InRegion (chr s (j + 1)) i →
      i < below s (chr s j) + 1) := by
  by_cases hlast : j + 1 < s.length
  · by_cases hs : IsS s (j + 1)
    · have hlms : IsLMS s (j + 1) := ⟨Nat.succ_pos j, hlast, hs, hl⟩
      obtain ⟨i, hi, hcell⟩ := h.lms _ hlms
      have := upTo_le_below s hlms.chr_lt
      have := hi.bounds
      refine Or.inl ⟨i, by omega, fun c hc => ?_, hcell⟩
      exact ((lLayout_inRegion s cell).mp hc).not_inSPart hi
    · refine Or.inr ?_
      obtain heq | hlt := Nat.eq_or_lt_of_le (chr_le_of_not_isS hl hlast)
      · exact Or.inl ⟨⟨hlast, hs⟩, heq⟩
      · refine Or.inr ⟨⟨hlast, hs⟩, fun i hi => ?_⟩
        have := upTo_le_below s hlt
        have := ((lLayout_inRegion s cell).mp hi).bounds
        omega
  · refine Or.inl ⟨0, Nat.succ_pos _, fun c hc => ?_, ?_⟩
    · exact Nat.not_lt_zero _ ((lLayout_inRegion s cell).mp hc).1
    · rw [h.zero, show j + 1 = s.length by omega]

/-- The left-to-right pass over a seeded array. -/
def lScan (h : Seeds s R cell) : Scan Nat where
  toLayout := lLayout s cell
  chosen_lt j hj := (of_decide_eq_true hj).1
  region_lt c i hi :=
    Nat.lt_succ_of_le (bucket_le_length ((lLayout_inRegion s cell).mp hi).bounds).2
  disjoint c d i hc hd := bucket_unique ((lLayout_inRegion s cell).mp hc).bounds
    ((lLayout_inRegion s cell).mp hd).bounds
  seed_not_chosen i e _ he hchosen := by
    obtain ⟨hlt, hl⟩ := of_decide_eq_true hchosen
    obtain rfl | hpos := Nat.eq_zero_or_pos i
    · have : some s.length = some e := h.zero.symm.trans he
      rw [Option.some.injEq] at this
      omega
    · exact hl (h.only i e hpos he).1.2.2.1
  seed_unique i i' e _ _ he he' := h.unique i i' e he he'
  feed j hj := by
    obtain ⟨hlt, hl⟩ := of_decide_eq_true hj
    simpa only [lLayout, decide_eq_true_eq] using lLayout_feed h hlt hl

theorem afterL_of_seeds (h : Seeds s R cell) : AfterL s R (lScan h).result := by
  have free : ∀ {i}, (∀ c, ¬ InLPart s c i) → (lScan h).result i = cell i := fun hi =>
    (lScan h).result_of_free (fun c hc => hi c ((lLayout_inRegion s cell).mp hc))
  have only : ∀ i e, 0 < i → i ≤ s.length → (lScan h).result i = some e → e < s.length ∧
      (¬ IsS s e ∧ InLPart s (chr s e) i ∨
        (IsLMS s e ∧ InSPart s (chr s e) i) ∧ cell i = some e) := by
    intro i e hpos _ he
    by_cases hi : ∃ c, InLPart s c i
    · obtain ⟨c, hc⟩ := hi
      obtain ⟨j, hj, hchosen, rfl⟩ :=
        (lScan h).result_of_region ((lLayout_inRegion s cell).mpr hc)
      obtain rfl : j = e := Option.some.inj (hj.symm.trans he)
      obtain ⟨hlt, hl⟩ := of_decide_eq_true hchosen
      exact ⟨hlt, Or.inl ⟨hl, hc⟩⟩
    · rw [free (fun c hc => hi ⟨c, hc⟩)] at he
      have := h.only i e hpos he
      exact ⟨this.1.2.1, Or.inr ⟨this, he⟩⟩
  refine
    { zero := ?_, placed := ?_, only := ?_, unique := ?_, seeds := ?_, order := ?_ }
  · rw [free (fun c hc => Nat.not_lt_zero _ hc.1), h.zero]
  · intro j hj hl
    obtain ⟨i, hi, he⟩ := (lScan h).exists_result (decide_eq_true ⟨hj, hl⟩)
    exact ⟨i, (lLayout_inRegion s cell).mp hi, he⟩
  · intro i e hpos hle he
    obtain ⟨hlt, hl | hs⟩ := only i e hpos hle he
    · exact ⟨hlt, Or.inl hl⟩
    · exact ⟨hlt, Or.inr hs.1⟩
  · exact fun i i' e hi hi' =>
      (lScan h).result_unique (Nat.lt_succ_of_le hi) (Nat.lt_succ_of_le hi')
  · intro i i' e e' hpos hlt hle he he' hlms hlms' hchr
    obtain ⟨_, ⟨hl, _⟩ | ⟨_, hcell⟩⟩ := only i e hpos (by omega) he
    · exact absurd hlms.2.2.1 hl
    obtain ⟨_, ⟨hl, _⟩ | ⟨_, hcell'⟩⟩ := only i' e' (by omega) hle he'
    · exact absurd hlms'.2.2.1 hl
    exact h.order i i' e e' hpos hlt hcell hcell' hchr
  · intro i i' e e' hpos hlt hle he he' hl hl' hchr
    obtain ⟨_, ⟨_, hi⟩ | ⟨⟨hlms, _⟩, _⟩⟩ := only i e hpos (by omega) he
    · obtain ⟨_, ⟨_, hi'⟩ | ⟨⟨hlms, _⟩, _⟩⟩ := only i' e' (by omega) hle he'
      · rw [← hchr] at hi'
        obtain ⟨k, k', hk, hk', hsource, hsource'⟩ := (lScan h).result_order
          ((lLayout_inRegion s cell).mpr hi) ((lLayout_inRegion s cell).mpr hi') hlt he he'
        exact ⟨k, k', hk, Nat.le_of_lt_succ hk', hsource, hsource'⟩
      · exact absurd hlms.2.2.1 hl'
    · exact absurd hlms.2.2.1 hl

theorem sLayout_feed (h : AfterL s R cell) {j : Nat} (hj : j < s.length) (hs : IsS s j) :
    (∃ t, t < s.length - upTo s (chr s j) ∧ (sLayout s cell).Free t ∧
      (sLayout s cell).init t = some (j + 1)) ∨
    ((j + 1 < s.length ∧ IsS s (j + 1)) ∧ chr s (j + 1) = chr s j) ∨
    ((j + 1 < s.length ∧ IsS s (j + 1)) ∧ ∀ t, (sLayout s cell).InRegion (chr s (j + 1)) t →
      t < s.length - upTo s (chr s j)) := by
  have hlast := hs.succ_lt hj
  by_cases hs' : IsS s (j + 1)
  · refine Or.inr ?_
    obtain heq | hlt := Nat.eq_or_lt_of_le (hs.chr_le hj)
    · exact Or.inl ⟨⟨hlast, hs'⟩, heq.symm⟩
    · refine Or.inr ⟨⟨hlast, hs'⟩, fun t ht => ?_⟩
      have := upTo_le_below s hlt
      have := ((sLayout_inRegion s cell).mp ht).2.bounds
      omega
  · have hlt : chr s j < chr s (j + 1) :=
      Nat.lt_of_le_of_ne (hs.chr_le hj) (fun same => hs' ((isS_succ_iff hlast same).mpr hs))
    obtain ⟨i, hi, he⟩ := h.placed _ hlast hs'
    have := upTo_le_below s hlt
    have := hi.bounds
    have := (bucket_le_length hi.bounds).2
    have mirror : s.length - (s.length - i) = i := by omega
    refine Or.inl ⟨s.length - i, by omega, fun c hc => ?_, ?_⟩
    · have := ((sLayout_inRegion s cell).mp hc).2
      rw [mirror] at this
      exact hi.not_inSPart this
    · simp only [sLayout, mirror, he, Nat.sub_le, if_true]

/-- The right-to-left pass over the result of the first. -/
def sScan (h : AfterL s R cell) : Scan Nat where
  toLayout := sLayout s cell
  chosen_lt j hj := (of_decide_eq_true hj).1
  region_lt c t ht := Nat.lt_succ_of_le ((sLayout_inRegion s cell).mp ht).1
  disjoint c d t hc hd := bucket_unique ((sLayout_inRegion s cell).mp hc).2.bounds
    ((sLayout_inRegion s cell).mp hd).2.bounds
  seed_not_chosen t e hfree he hchosen := by
    obtain ⟨hlt, hs⟩ := of_decide_eq_true hchosen
    obtain ⟨ht, he⟩ := (Option.ite_none_right_eq_some.mp he : t ≤ s.length ∧ _)
    obtain hzero | hpos := Nat.eq_zero_or_pos (s.length - t)
    · rw [hzero] at he
      have : some s.length = some e := h.zero.symm.trans he
      rw [Option.some.injEq] at this
      omega
    · obtain ⟨_, ⟨hl, _⟩ | ⟨_, hpart⟩⟩ := h.only _ e hpos (Nat.sub_le _ _) he
      · exact hl hs
      · exact hfree _ ((sLayout_inRegion s cell).mpr ⟨ht, hpart⟩)
  seed_unique t t' e _ _ he he' := by
    obtain ⟨ht, he⟩ := (Option.ite_none_right_eq_some.mp he : t ≤ s.length ∧ _)
    obtain ⟨ht', he'⟩ := (Option.ite_none_right_eq_some.mp he' : t' ≤ s.length ∧ _)
    have := h.unique _ _ e (Nat.sub_le _ _) (Nat.sub_le _ _) he he'
    omega
  feed j hj := by
    obtain ⟨hlt, hs⟩ := of_decide_eq_true hj
    simpa only [sLayout, decide_eq_true_eq] using sLayout_feed h hlt hs

/-- The cells of the S pass by slot. -/
def sResult (h : AfterL s R cell) (i : Nat) : Option Nat := (sScan h).result (s.length - i)

theorem afterS_of_afterL (h : AfterL s R cell) : AfterS s cell (sResult h) := by
  have mirror : ∀ {i}, i ≤ s.length → s.length - (s.length - i) = i := fun hi =>
    Nat.sub_sub_self hi
  have region : ∀ {c i}, i ≤ s.length → InSPart s c i →
      (sScan h).InRegion c (s.length - i) := by
    intro c i hi hc
    refine (sLayout_inRegion s cell).mpr ⟨Nat.sub_le _ _, ?_⟩
    rwa [mirror hi]
  have free : ∀ {i}, i ≤ s.length → (∀ c, ¬ InSPart s c i) → sResult h i = cell i := by
    intro i hi hfree
    rw [sResult, (sScan h).result_of_free]
    · show (if s.length - i ≤ s.length then _ else _) = _
      rw [if_pos (Nat.sub_le _ _), mirror hi]
    · intro c hc
      have := ((sLayout_inRegion s cell).mp hc).2
      rw [mirror hi] at this
      exact hfree c this
  have only : ∀ i e, 0 < i → i ≤ s.length → sResult h i = some e → e < s.length ∧
      (¬ IsS s e ∧ InLPart s (chr s e) i ∨ IsS s e ∧ InSPart s (chr s e) i) := by
    intro i e hpos hle he
    by_cases hi : ∃ c, InSPart s c i
    · obtain ⟨c, hc⟩ := hi
      obtain ⟨j, hj, hchosen, rfl⟩ := (sScan h).result_of_region (region hle hc)
      obtain rfl : j = e := Option.some.inj (hj.symm.trans he)
      obtain ⟨hlt, hs⟩ := of_decide_eq_true hchosen
      exact ⟨hlt, Or.inr ⟨hs, hc⟩⟩
    · rw [free hle (fun c hc => hi ⟨c, hc⟩)] at he
      obtain ⟨hlt, hl | ⟨_, hs⟩⟩ := h.only i e hpos hle he
      · exact ⟨hlt, Or.inl hl⟩
      · exact absurd ⟨_, hs⟩ hi
  refine { zero := ?_, placed := ?_, kept := ?_, only := only, order := ?_ }
  · rw [free (Nat.zero_le _) (fun c hc => Nat.not_lt_zero _ hc.1), h.zero]
  · intro j hj hs
    obtain ⟨t, ht, he⟩ := (sScan h).exists_result (decide_eq_true ⟨hj, hs⟩)
    obtain ⟨hle, hpart⟩ := (sLayout_inRegion s cell).mp ht
    exact ⟨s.length - t, hpart, by rwa [sResult, mirror hle]⟩
  · intro c i hi
    exact free (bucket_le_length hi.bounds).2 (fun d hd => hi.not_inSPart hd)
  · intro i i' e e' hpos hlt hle he he' hs hs' hchr
    obtain ⟨_, ⟨hl, _⟩ | ⟨_, hi⟩⟩ := only i e hpos (by omega) he
    · exact absurd hs hl
    obtain ⟨_, ⟨hl, _⟩ | ⟨_, hi'⟩⟩ := only i' e' (by omega) hle he'
    · exact absurd hs' hl
    rw [← hchr] at hi'
    obtain ⟨k, k', hk, hk', hsource, hsource'⟩ := (sScan h).result_order
      (region hle hi') (region (by omega) hi) (by omega) he' he
    have : k' ≤ s.length := Nat.le_of_lt_succ hk'
    exact ⟨s.length - k', s.length - k, by omega, Nat.sub_le _ _,
      by rwa [sResult, mirror this], by rwa [sResult, mirror (by omega)]⟩

end Scans

section Encoding

variable {s : List Nat} {lo size : Nat}

/-- The array whose slots hold the given cells, `invalid` standing for an empty one. -/
def slots (s : List Nat) (cell : Nat → Option Nat) : List Nat :=
  (List.range (s.length + 1)).map (fun i => (cell i).getD invalid)

/-- The bucket pointers of an alphabet. -/
def pointers (lo size : Nat) (next : Nat → Nat) : List Nat :=
  (List.range (size - lo)).map (fun b => next (b + lo))

@[simp] theorem length_slots (cell : Nat → Option Nat) : (slots s cell).length = s.length + 1 := by
  simp [slots]

theorem load_slots {cell : Nat → Option Nat} {i : Nat} (h : i ≤ s.length) :
    load (slots s cell) i = .ok ((cell i).getD invalid) := load_table _ (by omega)

theorem store_slots {cell : Nat → Option Nat} {i : Nat} (h : i ≤ s.length) (j : Nat) :
    store (slots s cell) i j = .ok (slots s (fun k => if k = i then some j else cell k)) := by
  rw [slots, store_table _ (by omega), slots]
  refine congrArg Except.ok (table_congr (fun k _ => ?_))
  split <;> rfl

theorem load_pointers (h : IsLevel s lo size) {next : Nat → Nat} {j : Nat} (hj : j < s.length) :
    load (pointers lo size next) (chr s j - lo) = .ok (next (chr s j)) := by
  have := h.le_chr hj
  have := h.chr_lt hj
  rw [pointers, load_table _ (by omega), Nat.sub_add_cancel (h.le_chr hj)]

theorem store_pointers (h : IsLevel s lo size) {next : Nat → Nat} {j : Nat} (hj : j < s.length)
    (x : Nat) : store (pointers lo size next) (chr s j - lo) x =
      .ok (pointers lo size (fun c => if c = chr s j then x else next c)) := by
  have := h.le_chr hj
  have := h.chr_lt hj
  rw [pointers, store_table _ (by omega), pointers]
  refine congrArg Except.ok (table_congr (fun b _ => ?_))
  have : b = chr s j - lo ↔ b + lo = chr s j := by omega
  simp only [this]

theorem load_chr {j : Nat} (hj : j < s.length) : load s j = .ok (chr s j) := by
  rw [load_of_lt hj, chr_eq_getElem hj]

theorem putHead_eq (h : IsLevel s lo size) {cell : Nat → Option Nat} {next : Nat → Nat} {j : Nat}
    (hj : j < s.length) (room : next (chr s j) ≤ s.length) :
    putHead s lo j (slots s cell, pointers lo size next) =
      .ok (slots s (fun i => if i = next (chr s j) then some j else cell i),
        pointers lo size (fun c => if c = chr s j then next (chr s j) + 1 else next c)) := by
  have fits : next (chr s j) + 1 < 2 ^ idxBits := by
    have := h.fits
    simp only [idxBits] at *
    omega
  simp only [putHead, load_chr hj, ok_bind, sub_of_le (h.le_chr hj), load_pointers h hj,
    store_slots room, inc_of_lt fits, store_pointers h hj, pure_eq_ok]

theorem putTail_eq (h : IsLevel s lo size) {cell : Nat → Option Nat} {next : Nat → Nat} {j : Nat}
    (hj : j < s.length) (hpos : 0 < next (chr s j)) (room : next (chr s j) ≤ s.length) :
    putTail s lo j (slots s cell, pointers lo size next) =
      .ok (slots s (fun i => if i = next (chr s j) then some j else cell i),
        pointers lo size (fun c => if c = chr s j then next (chr s j) - 1 else next c)) := by
  simp only [putTail, load_chr hj, ok_bind, sub_of_le (h.le_chr hj), load_pointers h hj,
    store_slots room, sub_of_le (show 1 ≤ next (chr s j) from hpos), store_pointers h hj,
    pure_eq_ok]

end Encoding

section Refinement

variable {s : List Nat} {lo size : Nat} {R : Nat → Nat → Prop} {cell : Nat → Option Nat}

/-- The concrete state of the L pass. -/
def lEncode (s : List Nat) (lo size : Nat) (st : State Nat) : List Nat × List Nat :=
  (slots s st.cell, pointers lo size st.next)

/-- The concrete state of the S pass: slots and pointers are mirrored. -/
def sEncode (s : List Nat) (lo size : Nat) (st : State Nat) : List Nat × List Nat :=
  (slots s (fun i => st.cell (s.length - i)), pointers lo size (fun c => s.length - st.next c))

theorem IsLevel.lt_invalid (h : IsLevel s lo size) {i : Nat} (hi : i ≤ s.length) : i < invalid := by
  have := h.fits
  simp only [invalid] at *
  omega

theorem IsLevel.lt_pow (h : IsLevel s lo size) {i : Nat} (hi : i ≤ s.length) : i < 2 ^ idxBits :=
  Nat.lt_of_lt_of_le (h.lt_invalid hi) (Nat.sub_le _ _)

/-- An entry behind position 0 leads to its predecessor, by no value that is invalid. -/
theorem IsLevel.entry (h : IsLevel s lo size) {j : Nat} (hj : j < s.length) :
    j + 1 ≠ invalid ∧ wrappingPred idxBits (j + 1) = j ∧ j ≠ invalid :=
  ⟨Nat.ne_of_lt (h.lt_invalid hj), wrappingPred_succ (h.lt_pow hj.le),
    Nat.ne_of_lt (h.lt_invalid hj.le)⟩

theorem lScan_cell_le (h : Seeds s R cell) {t : Nat} {st : State Nat} (inv : (lScan h).Inv t st)
    {e : Nat} (he : st.cell t = some e) : e ≤ s.length := by
  apply inv.cell_now (fun e hcell => ?_) (fun j hj => ((lScan h).chosen_lt j hj).le) he
  obtain rfl | hpos := Nat.eq_zero_or_pos t
  · exact Nat.le_of_eq (Option.some.inj (hcell.symm.trans h.zero))
  · exact (h.only t e hpos hcell).1.2.1.le

theorem sScan_cell_le (h : AfterL s R cell) {t : Nat} {st : State Nat} (inv : (sScan h).Inv t st)
    {e : Nat} (he : st.cell t = some e) : e ≤ s.length := by
  apply inv.cell_now (fun e hinit => ?_) (fun j hj => ((sScan h).chosen_lt j hj).le) he
  obtain ⟨_, hcell⟩ := (Option.ite_none_right_eq_some.mp hinit : t ≤ s.length ∧ _)
  obtain hzero | hpos := Nat.eq_zero_or_pos (s.length - t)
  · rw [hzero] at hcell
    exact Nat.le_of_eq (Option.some.inj (hcell.symm.trans h.zero))
  · exact (h.only _ e hpos (Nat.sub_le _ _) hcell).1.le

/-- One visit of the source's loop is one visit of the scan. The three cases of the
entry are an empty slot, position 0 with its wrapped predecessor, and a successor. -/
theorem lInduceStep_eq (level : IsLevel s lo size) (h : Seeds s R cell) {i : Nat}
    (hi : i ≤ s.length) {st : State Nat} (inv : (lScan h).Inv i st) :
    lInduceStep s (typesOf s) lo i (lEncode s lo size st) =
      .ok (lEncode s lo size ((lScan h).step i st)) := by
  rw [lInduceStep, lEncode, load_slots hi, ok_bind, Scan.step]
  cases hcell : st.cell i with
  | none => rfl
  | some e =>
      have hle := lScan_cell_le h inv hcell
      cases e with
      | zero => rfl
      | succ j =>
          have hj : j < s.length := hle
          obtain ⟨hne, hpred, hne'⟩ := level.entry hj
          have hchosen : (lScan h).chosen j = !decide (IsS s j) := by
            simp only [lScan, lLayout, hj, true_and, decide_not]
          simp only [Option.getD_some, if_pos hne, hpred, if_pos hne', load_typesOf hj.le, ok_bind,
            hchosen]
          split
          · next hl =>
              have room := (inv.write_room hcell (hchosen.trans hl)).1
              exact putHead_eq level hj (Nat.le_of_lt_succ ((lScan h).region_lt _ _ room))
          · rfl

theorem sInduceStep_eq (level : IsLevel s lo size) (h : AfterL s R cell) {i : Nat}
    (hi : i ≤ s.length) {st : State Nat} (inv : (sScan h).Inv (s.length - i) st) :
    sInduceStep s (typesOf s) lo i (sEncode s lo size st) =
      .ok (sEncode s lo size ((sScan h).step (s.length - i) st)) := by
  rw [sInduceStep, sEncode, load_slots hi, ok_bind, Scan.step]
  cases hcell : st.cell (s.length - i) with
  | none => rfl
  | some e =>
      have hle := sScan_cell_le h inv hcell
      cases e with
      | zero => rfl
      | succ j =>
          have hj : j < s.length := hle
          obtain ⟨hne, hpred, hne'⟩ := level.entry hj
          have hchosen : (sScan h).chosen j = decide (IsS s j) := by
            simp only [sScan, sLayout, hj, true_and]
          simp only [Option.getD_some, if_pos hne, hpred, if_pos hne', load_typesOf hj.le, ok_bind,
            hchosen]
          split
          · next hs =>
              have room := (inv.write_room hcell (hchosen.trans hs)).1
              obtain ⟨hroom, hpart⟩ : st.next (chr s j) ≤ s.length ∧
                  InSPart s (chr s j) (s.length - st.next (chr s j)) :=
                (sLayout_inRegion s cell).mp room
              have hpos := (bucket_le_length hpart.bounds).1
              refine Eq.trans (putTail_eq level hj ?_ ?_) ?_
              · exact hpos
              · exact Nat.sub_le _ _
              refine congrArg Except.ok (Prod.ext (table_congr fun k hk => ?_)
                (table_congr fun b _ => ?_))
              · have : k = s.length - st.next (chr s j) ↔ s.length - k = st.next (chr s j) := by
                  omega
                simp only [this]
                rfl
              · show (if b + lo = chr s j then _ else _) =
                  s.length - (if b + lo = chr s j then _ else _)
                split
                · exact Nat.sub_sub _ _ _
                · rfl
          · rfl

theorem headsOf_eq_pointers (s : List Nat) (lo size : Nat) :
    headsOf s lo size = pointers lo size (fun c => below s c + 1) :=
  table_congr (fun _ _ => Nat.add_comm _ _)

theorem tailsOf_eq_pointers (s : List Nat) (lo size : Nat) :
    tailsOf s lo size = pointers lo size (upTo s) := rfl

/-- The L pass over a seeded array returns, and leaves the cells of the scan. -/
theorem lInduceSort_eq (level : IsLevel s lo size) (h : Seeds s R cell) :
    ∃ heads, lInduceSort (slots s cell) s (typesOf s) (headsOf s lo size) lo =
      .ok (slots s (lScan h).result, heads) := by
  have loop : ∃ state, forSlots (s.length + 1) (lInduceStep s (typesOf s) lo)
      (lEncode s lo size (lScan h).start) = .ok state ∧
      state = lEncode s lo size ((lScan h).run (s.length + 1)) := by
    apply forSlots_ok (fun i state => state = lEncode s lo size ((lScan h).run i)) rfl
    rintro i _ hi rfl
    exact ⟨_, lInduceStep_eq level h (Nat.le_of_lt_succ hi) ((lScan h).inv_run i), rfl⟩
  obtain ⟨_, run, rfl⟩ := loop
  refine ⟨pointers lo size ((lScan h).run (s.length + 1)).next, ?_⟩
  rw [lInduceSort, length_slots, headsOf_eq_pointers]
  exact run

/-- The S pass with unspent tails returns, and leaves the cells of the scan. -/
theorem sInduceSort_eq (level : IsLevel s lo size) (h : AfterL s R cell) :
    ∃ tails, sInduceSort (slots s cell) s (typesOf s) (tailsOf s lo size) lo =
      .ok (slots s (sResult h), tails) := by
  have loop : ∃ state, forSlotsDown (s.length + 1) (sInduceStep s (typesOf s) lo)
      (sEncode s lo size (sScan h).start) = .ok state ∧
      state = sEncode s lo size ((sScan h).run (s.length + 1 - 0)) := by
    apply forSlotsDown_ok (fun k state =>
      state = sEncode s lo size ((sScan h).run (s.length + 1 - k)))
    · rw [Nat.sub_self]
      rfl
    · rintro i _ hi rfl
      have htime : s.length + 1 - (i + 1) = s.length - i := Nat.add_sub_add_right _ _ _
      have hnext : s.length + 1 - i = s.length - i + 1 := by omega
      rw [htime, hnext]
      exact ⟨_, sInduceStep_eq level h (Nat.le_of_lt_succ hi) ((sScan h).inv_run _), rfl⟩
  obtain ⟨_, run, rfl⟩ := loop
  refine ⟨pointers lo size
    (fun c => s.length - ((sScan h).run (s.length + 1 - 0)).next c), ?_⟩
  have start : (slots s cell, tailsOf s lo size) = sEncode s lo size (sScan h).start := by
    refine Prod.ext (table_congr fun i hi => ?_) (table_congr fun b _ => ?_)
    · show _ = Option.getD (if s.length - i ≤ s.length then _ else _) _
      rw [if_pos (Nat.sub_le _ _), Nat.sub_sub_self (Nat.le_of_lt_succ hi)]
    · exact (Nat.sub_sub_self (upTo_le_length s _)).symm
  rw [sInduceSort, length_slots, start]
  exact run

end Refinement

end SuffixArray.InducedSorting
