import SuffixArray.InducedSorting.Passes
import SuffixArray.LmsSubstring

/-!
# What the two passes sort by

A relation on positions that follows character and type, and that a step to the
right of two positions of one character and type preserves, holds along the whole
array once it holds along the seeds of each bucket. The inductions follow the
successors, of which every pass has recorded the order.
-/

namespace SuffixArray.InducedSorting

open Checked SuffixOrder

variable {s : List Nat} {lo size : Nat} {R P Q : Nat → Nat → Prop} {before cell : Nat → Option Nat}

/-- What a relation owes to the first character and type of the positions alone. -/
structure Follows (s : List Nat) (P : Nat → Nat → Prop) : Prop where
  empty : ∀ e, e < s.length → P s.length e
  typed : ∀ e e', e < s.length → e' < s.length → typed s e < typed s e' → P e e'

/-- In slots of two buckets the characters decide. -/
theorem Follows.of_slots (hP : Follows s P) {e e' i i' : Nat} (he : e < s.length)
    (he' : e' < s.length) (hi : below s (chr s e) < i ∧ i ≤ upTo s (chr s e))
    (hi' : below s (chr s e') < i' ∧ i' ≤ upTo s (chr s e')) (hlt : i < i')
    (same : chr s e = chr s e' → P e e') : P e e' := by
  obtain heq | hchr := Nat.eq_or_lt_of_le (chr_le_of_slot_lt hi hi' hlt)
  · exact same heq
  · exact hP.typed e e' he he' (typed_lt_of_chr_lt hchr)

/-- An S-part lies behind the L-part of its bucket. -/
theorem InSPart.not_lt_inLPart {c i i' : Nat} (hi : InSPart s c i) (hi' : InLPart s c i') :
    ¬ i < i' := by
  have := hi.1
  have := hi'.2
  omega

/-- In slots of one bucket the parts decide, and within a part what is known of it. `T`
are the entries of the S-parts. -/
theorem Follows.of_parts (hP : Follows s P) {T : Nat → Prop} (hT : ∀ e, T e → IsS s e)
    {e e' i i' : Nat} (he : e < s.length) (he' : e' < s.length) (hlt : i < i')
    (hpart : ¬ IsS s e ∧ InLPart s (chr s e) i ∨ T e ∧ InSPart s (chr s e) i)
    (hpart' : ¬ IsS s e' ∧ InLPart s (chr s e') i' ∨ T e' ∧ InSPart s (chr s e') i')
    (low : ¬ IsS s e ∧ InLPart s (chr s e) i → ¬ IsS s e' ∧ InLPart s (chr s e') i' →
      chr s e = chr s e' → P e e')
    (high : T e → T e' → chr s e = chr s e' → P e e') : P e e' := by
  obtain hl | hs := hpart
  · obtain hl' | hs' := hpart'
    · exact hP.of_slots he he' hl.2.bounds hl'.2.bounds hlt (low hl hl')
    · apply hP.of_slots he he' hl.2.bounds hs'.2.bounds hlt
      intro same
      exact hP.typed e e' he he' (typed_lt_typed_iff.mpr (Or.inr ⟨same, hl.1, hT e' hs'.1⟩))
  · obtain hl' | hs' := hpart'
    · apply hP.of_slots he he' hs.2.bounds hl'.2.bounds hlt
      intro same
      exact absurd hlt (hs.2.not_lt_inLPart (same ▸ hl'.2))
    · exact hP.of_slots he he' hs.2.bounds hs'.2.bounds hlt (high hs.1 hs'.1)

/-- An array with the empty suffix first is ordered if any two of its other entries
are, given the order of the positions right of them. The induction goes along the
text, from its end. -/
theorem Follows.ordered (hP : Follows s P) {cell : Nat → Option Nat}
    (zero : cell 0 = some s.length)
    (proper : ∀ i e, 0 < i → i ≤ s.length → cell i = some e → e < s.length)
    (next : ∀ i i' e e', 0 < i → i < i' → i' ≤ s.length → cell i = some e → cell i' = some e' →
      (∀ k k', k < k' → k' ≤ s.length → cell k = some (e + 1) → cell k' = some (e' + 1) →
        P (e + 1) (e' + 1)) → P e e') :
    ∀ i i' e e', i < i' → i' ≤ s.length → cell i = some e → cell i' = some e' → P e e' := by
  intro i i' e e' hlt hle he he'
  induction hd : s.length - e generalizing i i' e e' with
  | zero =>
      obtain rfl | hpos := Nat.eq_zero_or_pos i
      · obtain rfl : s.length = e := Option.some.inj (zero.symm.trans he)
        exact hP.empty e' (proper i' e' hlt hle he')
      · have := proper i e hpos (by omega) he
        omega
  | succ d ih =>
      obtain rfl | hpos := Nat.eq_zero_or_pos i
      · have : s.length = e := Option.some.inj (zero.symm.trans he)
        omega
      · exact next i i' e e' hpos hlt hle he he' (fun k k' hkk hk hsource hsource' =>
          ih k k' _ _ hkk hk hsource hsource' (by omega))

theorem AfterL.rel (h : AfterL s R cell) (hP : Follows s P)
    (seeds : ∀ e e', IsLMS s e → IsLMS s e' → chr s e = chr s e' → R e e' → P e e')
    (step : ∀ e e', e < s.length → e' < s.length → ¬ IsS s e → ¬ IsS s e' →
      chr s e = chr s e' → P (e + 1) (e' + 1) → P e e') :
    ∀ i i' e e', i < i' → i' ≤ s.length → cell i = some e → cell i' = some e' → P e e' := by
  apply hP.ordered h.zero (fun i e hpos hi he => (h.only i e hpos hi he).1)
  intro i i' e e' hpos hlt hle he he' ih
  obtain ⟨helt, hpart⟩ := h.only i e hpos (by omega) he
  obtain ⟨he'lt, hpart'⟩ := h.only i' e' (by omega) hle he'
  apply hP.of_parts (T := IsLMS s) (fun e hlms => hlms.2.2.1) helt he'lt hlt hpart hpart'
  · intro hl hl' same
    obtain ⟨k, k', hk, hk', hsource, hsource'⟩ :=
      h.order i i' e e' hpos hlt hle he he' hl.1 hl'.1 same
    exact step e e' helt he'lt hl.1 hl'.1 same (ih k k' hk hk' hsource hsource')
  · intro hlms hlms' same
    exact seeds e e' hlms hlms' same (h.seeds i i' e e' hpos hlt hle he he' hlms hlms' same)

theorem AfterS.rel (h : AfterS s before cell) (hP : Follows s P)
    (kept : ∀ i i' e e', i < i' → i' ≤ s.length → before i = some e → before i' = some e' →
      ¬ IsS s e → ¬ IsS s e' → P e e')
    (step : ∀ e e', e < s.length → e' < s.length → IsS s e → IsS s e' →
      chr s e = chr s e' → P (e + 1) (e' + 1) → P e e') :
    ∀ i i' e e', i < i' → i' ≤ s.length → cell i = some e → cell i' = some e' → P e e' := by
  apply hP.ordered h.zero (fun i e hpos hi he => (h.only i e hpos hi he).1)
  intro i i' e e' hpos hlt hle he he' ih
  obtain ⟨helt, hpart⟩ := h.only i e hpos (by omega) he
  obtain ⟨he'lt, hpart'⟩ := h.only i' e' (by omega) hle he'
  apply hP.of_parts (T := IsS s) (fun _ hs => hs) helt he'lt hlt hpart hpart'
  · intro hl hl' _
    exact kept i i' e e' hlt hle ((h.kept _ i hl.2).symm.trans he)
      ((h.kept _ i' hl'.2).symm.trans he') hl.1 hl'.1
  · intro hs hs' same
    obtain ⟨k, k', hk, hk', hsource, hsource'⟩ :=
      h.order i i' e e' hpos hlt hle he he' hs hs' same
    exact step e e' helt he'lt hs hs' same (ih k k' hk hk' hsource hsource')

/-- The array both passes leave, from a seeded one. -/
def induced (h : Seeds s R cell) : List Nat := slots s (sResult (afterL_of_seeds h))

theorem mem_slots_of_cell {i e : Nat} (hi : i ≤ s.length) (he : cell i = some e) :
    e ∈ slots s cell :=
  List.mem_map.mpr ⟨i, List.mem_range.mpr (Nat.lt_succ_of_le hi), by rw [he, Option.getD_some]⟩

/-- No slot is left empty and every position has one. -/
theorem induced_perm (h : Seeds s R cell) : (induced h).Perm (List.range (s.length + 1)) := by
  have afterL := afterL_of_seeds h
  have afterS := afterS_of_afterL afterL
  have sub : List.range (s.length + 1) ⊆ induced h := by
    intro j hj
    obtain rfl | hlt := Nat.eq_or_lt_of_le (Nat.le_of_lt_succ (List.mem_range.mp hj))
    · exact mem_slots_of_cell (Nat.zero_le _) afterS.zero
    by_cases hs : IsS s j
    · obtain ⟨i, hi, he⟩ := afterS.placed j hlt hs
      exact mem_slots_of_cell (bucket_le_length hi.bounds).2 he
    · obtain ⟨i, hi, he⟩ := afterL.placed j hlt hs
      exact mem_slots_of_cell (bucket_le_length hi.bounds).2 ((afterS.kept _ i hi).trans he)
  refine (List.Subperm.perm_of_length_le (List.nodup_range.subperm sub) ?_).symm
  simp only [induced, length_slots, List.length_range, Nat.le_refl]

theorem induced_head (h : Seeds s R cell) : (induced h)[0]? = some s.length := by
  rw [induced, slots, List.getElem?_map, List.getElem?_range (Nat.succ_pos _), Option.map_some,
    (afterS_of_afterL (afterL_of_seeds h)).zero, Option.getD_some]

/-- `P` is what holds along the array after the L pass and `Q` after the S pass. -/
theorem induced_pairwise (level : IsLevel s lo size) (h : Seeds s R cell) (hP : Follows s P)
    (hQ : Follows s Q)
    (seeds : ∀ e e', IsLMS s e → IsLMS s e' → chr s e = chr s e' → R e e' → P e e')
    (stepL : ∀ e e', e < s.length → e' < s.length → ¬ IsS s e → ¬ IsS s e' →
      chr s e = chr s e' → P (e + 1) (e' + 1) → P e e')
    (kept : ∀ e e', ¬ IsS s e → ¬ IsS s e' → P e e' → Q e e')
    (stepS : ∀ e e', e < s.length → e' < s.length → IsS s e → IsS s e' →
      chr s e = chr s e' → Q (e + 1) (e' + 1) → Q e e') :
    (induced h).Pairwise Q := by
  have afterL := afterL_of_seeds h
  have rel := (afterS_of_afterL afterL).rel hQ
    (fun i i' e e' hlt hle he he' hl hl' =>
      kept e e' hl hl' (afterL.rel hP seeds stepL i i' e e' hlt hle he he')) stepS
  have filled : ∀ {i}, i ≤ s.length → ∃ e, sResult afterL i = some e := by
    intro i hi
    cases hcell : sResult afterL i with
    | some e => exact ⟨e, rfl⟩
    | none =>
        have hmem : invalid ∈ induced h := List.mem_map.mpr
          ⟨i, List.mem_range.mpr (Nat.lt_succ_of_le hi), by rw [hcell, Option.getD_none]⟩
        have := List.mem_range.mp ((induced_perm h).mem_iff.mp hmem)
        have := level.lt_invalid (Nat.le_refl s.length)
        omega
  rw [List.pairwise_iff_getElem]
  intro i i' hi hi' hlt
  simp only [induced, length_slots] at hi hi'
  obtain ⟨e, he⟩ := filled (Nat.le_of_lt_succ hi)
  obtain ⟨e', he'⟩ := filled (Nat.le_of_lt_succ hi')
  have := rel i i' e e' hlt (Nat.le_of_lt_succ hi') he he'
  simpa only [induced, slots, List.getElem_map, List.getElem_range, he, he', Option.getD_some]
    using this

/-- Both passes of the source, run one after the other on a seeded array. -/
theorem passes_eq (level : IsLevel s lo size) (h : Seeds s R cell) : ∃ heads tails between,
    lInduceSort (slots s cell) s (typesOf s) (headsOf s lo size) lo = .ok (between, heads) ∧
    sInduceSort between s (typesOf s) (tailsOf s lo size) lo = .ok (induced h, tails) := by
  obtain ⟨heads, runL⟩ := lInduceSort_eq level h
  obtain ⟨tails, runS⟩ := sInduceSort_eq level (afterL_of_seeds h)
  exact ⟨heads, tails, _, runL, runS⟩

end SuffixArray.InducedSorting
