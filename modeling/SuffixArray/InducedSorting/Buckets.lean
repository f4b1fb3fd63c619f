import SuffixArray.InducedSorting
import SuffixArray.SuffixOrder

/-!
# Types and buckets of a level string

The flags computed by `makeSTypes`, the sizes by `makeCounts` and the slots by
`makeBuckets` are given as closed lists. Slot 0 belongs to the empty suffix and
the slots after it to the buckets of the characters in increasing order; the
L-type positions of a bucket take its front and the S-type ones its back.
-/

namespace SuffixArray.InducedSorting

open Checked SuffixOrder

/-- What every string that reaches `toStack` satisfies: its positions are valid
indices different from `invalid`, and its elements lie in the alphabet for which
buckets are made. -/
structure IsLevel (s : List Nat) (lo size : Nat) : Prop where
  pos : 0 < s.length
  fits : s.length < 2 ^ idxBits - 1
  lo_le : ∀ c ∈ s, lo ≤ c
  lt_size : ∀ c ∈ s, c < size

namespace IsLevel

variable {s : List Nat} {lo size : Nat}

theorem le_chr (h : IsLevel s lo size) {i : Nat} (hi : i < s.length) : lo ≤ chr s i :=
  h.lo_le _ (chr_mem hi)

theorem chr_lt (h : IsLevel s lo size) {i : Nat} (hi : i < s.length) : chr s i < size :=
  h.lt_size _ (chr_mem hi)

theorem lo_lt_size (h : IsLevel s lo size) : lo < size :=
  Nat.lt_of_le_of_lt (h.le_chr h.pos) (h.chr_lt h.pos)

end IsLevel

section Tables

variable {α : Type}

/-- Tables are given by their entries, as maps of an index range. -/
theorem load_table (f : Nat → α) {k i : Nat} (h : i < k) :
    load ((List.range k).map f) i = .ok (f i) := by
  rw [load_of_lt (by simpa using h)]
  simp

theorem store_table (f : Nat → α) {k i : Nat} (h : i < k) (x : α) :
    store ((List.range k).map f) i x =
      .ok ((List.range k).map (fun j => if j = i then x else f j)) := by
  rw [store_of_lt (by simpa using h)]
  congr 1
  apply List.ext_getElem (by simp)
  intro j hj hj'
  simp only [List.getElem_set, List.getElem_map, List.getElem_range, eq_comm]

theorem table_congr {f g : Nat → α} {k : Nat} (h : ∀ i, i < k → f i = g i) :
    (List.range k).map f = (List.range k).map g :=
  List.map_congr_left (fun i hi => h i (List.mem_range.mp hi))

theorem replicate_eq_table (k : Nat) (x : α) :
    List.replicate k x = (List.range k).map (fun _ => x) := by
  rw [List.map_const', List.length_range]

end Tables

/-- The flags of `s`, one for each suffix. -/
def typesOf (s : List Nat) : List Bool :=
  (List.range (s.length + 1)).map (fun i => decide (IsS s i))

@[simp] theorem length_typesOf (s : List Nat) : (typesOf s).length = s.length + 1 := by
  simp [typesOf]

theorem load_typesOf {s : List Nat} {i : Nat} (h : i ≤ s.length) :
    load (typesOf s) i = .ok (decide (IsS s i)) := load_table _ (by omega)

/-- One step of the recurrence, on flags. -/
theorem decide_isS {s : List Nat} {i : Nat} (h : i + 1 < s.length) :
    (decide (IsS s i) = false) ↔
      chr s (i + 1) < chr s i ∨ (chr s i = chr s (i + 1) ∧ ¬ decide (IsS s (i + 1)) = true) := by
  rw [decide_eq_false_iff_not, decide_eq_true_eq, isS_iff h]
  by_cases hs : IsS s (i + 1)
  · simp only [hs, and_true, not_or, not_true, and_false, or_false]
    omega
  · simp only [hs, and_false, or_false, not_false_eq_true, and_true]
    omega

/-- The backward loop labels every suffix with its type. -/
theorem makeSTypes_eq {s : List Nat} (hpos : 0 < s.length) :
    makeSTypes s = .ok (typesOf s) := by
  let inv (k : Nat) (sTypes : List Bool) : Prop :=
    ∃ f : Nat → Bool, sTypes = (List.range (s.length + 1)).map f ∧
      ∀ i, k ≤ i → i ≤ s.length → f i = decide (IsS s i)
  have step : ∀ i sTypes, i < s.length - 1 → inv (i + 1) sTypes → ∃ t, (do
      let c ← load s i
      let c' ← load s (i + 1)
      let next ← load sTypes (i + 1)
      if c' < c ∨ (c = c' ∧ ¬ next) then store sTypes i false else store sTypes i true) = .ok t ∧
        inv i t := by
    rintro i _ hi ⟨f, rfl, hf⟩
    refine ⟨(List.range (s.length + 1)).map (fun j => if j = i then decide (IsS s i) else f j), ?_,
      _, rfl, ?_⟩
    · rw [load_of_lt (by omega : i < s.length), ok_bind,
        load_of_lt (by omega : i + 1 < s.length), ok_bind, load_table f (by omega), ok_bind,
        hf (i + 1) (Nat.le_refl _) (by omega), ← chr_eq_getElem, ← chr_eq_getElem]
      simp only [← decide_isS (show i + 1 < s.length by omega)]
      split
      · next h => rw [store_table f (by omega), h]
      · next h => rw [store_table f (by omega), Bool.eq_true_of_not_eq_false h]
    · intro j hj hjn
      by_cases same : j = i
      · rw [if_pos same, same]
      · rw [if_neg same]
        exact hf j (by omega) hjn
  have init : inv (s.length - 1) ((List.range (s.length + 1)).map (fun j =>
      if j = s.length - 1 then false else if j = s.length then true else false)) := by
    refine ⟨_, rfl, ?_⟩
    intro i hi hin
    by_cases last : i = s.length - 1
    · rw [if_pos last, eq_comm, decide_eq_false_iff_not]
      exact not_isS_last (by omega)
    · have : i = s.length := by omega
      rw [if_neg last, if_pos this, this, eq_comm, decide_eq_true_eq]
      exact isS_length s
  obtain ⟨t, run, f, rfl, hf⟩ := forSlotsDown_ok inv init step
  rw [makeSTypes, replicate_eq_table, store_table _ (by omega), ok_bind,
    if_pos (by omega : s.length ≠ 0), store_table _ (by omega), ok_bind, run, typesOf]
  exact congrArg Except.ok (table_congr (fun i hi => hf i (Nat.zero_le _) (by omega)))

theorem idxIsLMSC_eq {s : List Nat} {i : Nat} (hpos : 0 < i) (hi : i < s.length) :
    idxIsLMSC i (typesOf s) = .ok (decide (IsLMS s i)) := by
  rw [idxIsLMSC, load_typesOf (by omega), ok_bind]
  by_cases hs : IsS s i
  · rw [if_pos (decide_eq_true hs), sub_of_le hpos, ok_bind, load_typesOf (by omega), ok_bind]
    simp only [pure_eq_ok, IsLMS, hpos, hi, hs, true_and, decide_not]
  · rw [if_neg (by simpa using hs)]
    simp only [pure_eq_ok, IsLMS, hs, false_and, and_false, decide_false]

section Counting

/-- Positions below the end whose character satisfies `P`. -/
def positions (s : List Nat) (P : Nat → Prop) [DecidablePred P] : Finset Nat :=
  (Finset.range s.length).filter P

/-- How many positions have a smaller character than `c`. -/
def below (s : List Nat) (c : Nat) : Nat := (positions s (fun i => chr s i < c)).card

def upTo (s : List Nat) (c : Nat) : Nat := (positions s (fun i => chr s i ≤ c)).card

def countOf (s : List Nat) (c : Nat) : Nat := (positions s (fun i => chr s i = c)).card

def lCount (s : List Nat) (c : Nat) : Nat :=
  (positions s (fun i => ¬ IsS s i ∧ chr s i = c)).card

def sCount (s : List Nat) (c : Nat) : Nat :=
  (positions s (fun i => IsS s i ∧ chr s i = c)).card

variable (s : List Nat)

theorem lCount_add_sCount (c : Nat) : lCount s c + sCount s c = countOf s c := by
  rw [lCount, sCount, countOf, positions, positions, positions, ← Finset.card_union_of_disjoint]
  · congr 1
    ext i
    by_cases h : IsS s i <;> simp [h]
  · rw [Finset.disjoint_filter]
    exact fun i _ hl hs => hl.1 hs.1

theorem below_add_countOf (c : Nat) : below s c + countOf s c = upTo s c := by
  rw [below, countOf, upTo, positions, positions, positions, ← Finset.card_union_of_disjoint]
  · congr 1
    ext i
    simp only [Finset.mem_union, Finset.mem_filter, Finset.mem_range, le_iff_lt_or_eq]
    tauto
  · rw [Finset.disjoint_filter]
    intro i _ hlt heq
    omega

theorem upTo_eq_below_succ (c : Nat) : upTo s c = below s (c + 1) := by
  simp only [upTo, below, positions, Nat.lt_succ_iff]

theorem upTo_le_below {c d : Nat} (h : c < d) : upTo s c ≤ below s d := by
  apply Finset.card_le_card
  intro i hi
  simp only [positions, Finset.mem_filter] at hi ⊢
  exact ⟨hi.1, by omega⟩

theorem upTo_le_length (c : Nat) : upTo s c ≤ s.length :=
  (Finset.card_filter_le _ _).trans_eq (Finset.card_range _)

theorem below_eq_zero {c : Nat} (h : ∀ d ∈ s, c ≤ d) : below s c = 0 := by
  rw [below, Finset.card_eq_zero, positions, Finset.filter_eq_empty_iff]
  intro i hi hlt
  have := h _ (chr_mem (Finset.mem_range.mp hi))
  omega

theorem countOf_eq_count (c : Nat) : countOf s c = s.count c := by
  conv_rhs => rw [← map_chr_range s]
  rw [List.count_eq_countP, List.countP_map, List.countP_eq_length_filter]
  rfl

/-- Running totals of the buckets of an alphabet from `lo` on. -/
theorem below_succ (lo b : Nat) :
    below s (b + 1 + lo) = below s (b + lo) + countOf s (b + lo) := by
  rw [below_add_countOf, upTo_eq_below_succ]
  congr 1
  omega

end Counting

section Computed

variable {s : List Nat} {lo size : Nat}

def countsOf (s : List Nat) (lo size : Nat) : List Nat :=
  (List.range (size - lo)).map (fun b => countOf s (b + lo))

def headsOf (s : List Nat) (lo size : Nat) : List Nat :=
  (List.range (size - lo)).map (fun b => 1 + below s (b + lo))

def tailsOf (s : List Nat) (lo size : Nat) : List Nat :=
  (List.range (size - lo)).map (fun b => upTo s (b + lo))

theorem makeCounts_table (k : Nat) (s : List Nat) (f : Nat → Nat)
    (inside : ∀ c ∈ s, lo ≤ c ∧ c - lo < k)
    (fits : ∀ b, b < k → f b + s.count (b + lo) < 2 ^ idxBits) :
    makeCounts s ((List.range k).map f) lo =
      .ok ((List.range k).map (fun b => f b + s.count (b + lo))) := by
  induction s generalizing f with
  | nil => rfl
  | cons c s ih =>
      obtain ⟨hlo, hhi⟩ := inside c (List.mem_cons_self ..)
      have count : ∀ b, b < k → (if b = c - lo then f (c - lo) + 1 else f b) +
          s.count (b + lo) = f b + (c :: s).count (b + lo) := by
        intro b _
        rw [List.count_cons]
        by_cases same : b = c - lo
        · have : c = b + lo := by omega
          simp only [same, if_true, beq_self_eq_true, Nat.sub_add_cancel hlo]
          omega
        · have : c ≠ b + lo := by omega
          simp only [same, if_false, beq_iff_eq, this, Nat.add_zero]
      have room : f (c - lo) + 1 < 2 ^ idxBits := by
        have := fits (c - lo) hhi
        rw [← count (c - lo) hhi, if_pos rfl] at this
        omega
      rw [makeCounts, List.foldlM_cons, sub_of_le hlo, ok_bind, load_table f hhi, ok_bind,
        inc_of_lt room, ok_bind, store_table f hhi, ok_bind]
      refine (ih _ (fun d hd => inside d (List.mem_cons_of_mem _ hd)) ?_).trans ?_
      · intro b hb
        rw [count b hb]
        exact fits b hb
      · exact congrArg Except.ok (table_congr count)

theorem makeCounts_eq (h : IsLevel s lo size) :
    makeCounts s (List.replicate (size - lo) 0) lo = .ok (countsOf s lo size) := by
  rw [replicate_eq_table, makeCounts_table (size - lo) s (fun _ => 0)]
  · exact congrArg Except.ok (table_congr (fun b _ => by rw [countOf_eq_count, Nat.zero_add]))
  · intro c hc
    have := h.lo_le c hc
    have := h.lt_size c hc
    omega
  · intro b _
    have := List.count_le_length (a := b + lo) (l := s)
    have := h.fits
    simp only [idxBits] at this ⊢
    omega

theorem below_lo (h : IsLevel s lo size) : below s lo = 0 := below_eq_zero s h.lo_le

theorem makeBuckets_heads (h : IsLevel s lo size) :
    makeBuckets (countsOf s lo size) [] true = .ok (headsOf s lo size) := by
  let inv (i : Nat) (state : Nat × List Nat) : Prop :=
    state = (1 + below s (i + lo), (List.range i).map (fun b => 1 + below s (b + lo)))
  have step : ∀ i state, 0 ≤ i → i < 0 + (size - lo) → inv i state → ∃ t,
      pushHead state (countOf s (i + lo)) = .ok t ∧ inv (i + 1) t := by
    rintro i _ _ _ rfl
    refine ⟨_, ?_, rfl⟩
    have room : 1 + below s (i + lo) + countOf s (i + lo) < 2 ^ idxBits := by
      have := upTo_le_length s (i + lo)
      have := below_add_countOf s (i + lo)
      have := h.fits
      simp only [idxBits] at *
      omega
    rw [pushHead, add_of_lt room, ok_bind, pure_eq_ok, below_succ, List.range_succ,
      List.map_append, List.map_cons, List.map_nil, Nat.add_assoc]
  obtain ⟨t, run, rfl⟩ := foldlM_range_ok inv _ (size - lo) 0 (1, [])
    (by simp only [inv, Nat.zero_add, below_lo h, List.range_zero, List.map_nil]) step
  rw [makeBuckets, if_pos rfl, countsOf, List.foldlM_map, List.range_eq_range', run, ok_bind,
    Nat.zero_add]
  rfl

theorem makeBuckets_tails (h : IsLevel s lo size) :
    makeBuckets (countsOf s lo size) [] false = .ok (tailsOf s lo size) := by
  let inv (i : Nat) (state : Nat × List Nat) : Prop :=
    state = (below s (i + lo), (List.range i).map (fun b => upTo s (b + lo)))
  have step : ∀ i state, 0 ≤ i → i < 0 + (size - lo) → inv i state → ∃ t,
      pushTail state (countOf s (i + lo)) = .ok t ∧ inv (i + 1) t := by
    rintro i _ _ _ rfl
    refine ⟨_, ?_, rfl⟩
    have total := below_add_countOf s (i + lo)
    have room : below s (i + lo) + countOf s (i + lo) < 2 ^ idxBits := by
      have := upTo_le_length s (i + lo)
      have := h.fits
      simp only [idxBits] at *
      omega
    rw [pushTail, add_of_lt room, ok_bind, pure_eq_ok, below_succ, List.range_succ,
      List.map_append, List.map_cons, List.map_nil, total]
  obtain ⟨t, run, rfl⟩ := foldlM_range_ok inv _ (size - lo) 0 (0, [])
    (by simp only [inv, Nat.zero_add, below_lo h, List.range_zero, List.map_nil]) step
  rw [makeBuckets, if_neg (by decide), countsOf, List.foldlM_map, List.range_eq_range', run,
    ok_bind, Nat.zero_add]
  rfl

end Computed

end SuffixArray.InducedSorting
