import SuffixArray.SuffixOrder

/-!
# Prefixes in the lexicographic order

A list is at most everything that begins with it, and what lies between a list and
something that begins with it begins with it, too. In a suffix array the positions
that begin with a pattern therefore have consecutive ranks. `commonPrefix` measures
how far two lists agree.
-/

namespace SuffixOrder

variable {α : Type} [LinearOrder α]

theorem cons_le_cons_iff {a b : α} {l l' : List α} :
    a :: l ≤ b :: l' ↔ a < b ∨ a = b ∧ l ≤ l' := by
  rw [← not_lt, List.cons_lt_cons_iff, ← not_lt]
  obtain hlt | rfl | hgt := lt_trichotomy a b
  · simp only [hlt, lt_asymm hlt, (ne_of_lt hlt).symm, false_and, or_false, not_false_eq_true,
      true_or]
  · simp only [lt_irrefl, true_and, false_or]
  · simp only [hgt, true_or, not_true, lt_asymm hgt, (ne_of_lt hgt).symm, false_and, or_false]

theorem le_of_isPrefix {p l : List α} (h : p <+: l) : p ≤ l := by
  induction p generalizing l with
  | nil => exact not_lt.mp (List.not_lt_nil l)
  | cons a p ih =>
      obtain ⟨rest, rfl⟩ := h
      exact cons_le_cons_iff.mpr (Or.inr ⟨rfl, ih ⟨rest, rfl⟩⟩)

theorem lt_of_isPrefix {p l : List α} (h : p <+: l) (proper : p ≠ l) : p < l :=
  lt_of_le_of_ne (le_of_isPrefix h) proper

/-- What begins with `p` is an interval. -/
theorem prefix_of_le_of_le {p l l' : List α} (lower : p ≤ l) (upper : l ≤ l') (h : p <+: l') :
    p <+: l := by
  induction p generalizing l l' with
  | nil => exact List.nil_prefix
  | cons a p ih =>
      cases l' with
      | nil => exact absurd (List.prefix_nil.mp h) (List.cons_ne_nil a p)
      | cons c l' =>
          obtain ⟨rfl, htail⟩ := List.cons_prefix_cons.mp h
          cases l with
          | nil => exact absurd (List.nil_lt_cons a p) (not_lt.mpr lower)
          | cons b l =>
              obtain hlt | ⟨rfl, hpl⟩ := cons_le_cons_iff.mp lower
              · obtain hgt | ⟨same, _⟩ := cons_le_cons_iff.mp upper
                · exact absurd hlt (lt_asymm hgt)
                · exact absurd hlt (same ▸ lt_irrefl _)
              · obtain hgt | ⟨_, hll⟩ := cons_le_cons_iff.mp upper
                · exact absurd hgt (lt_irrefl _)
                · exact List.cons_prefix_cons.mpr ⟨rfl, ih hpl hll htail⟩

/-- The length of the longest common prefix. -/
def commonPrefix : List α → List α → Nat
  | a :: l, b :: l' => if a = b then commonPrefix l l' + 1 else 0
  | _, _ => 0

section CommonPrefix

variable {l l' : List α}

theorem commonPrefix_nil_right (l : List α) : commonPrefix l [] = 0 := by cases l <;> rfl

theorem commonPrefix_cons (a b : α) (l l' : List α) :
    commonPrefix (a :: l) (b :: l') = if a = b then commonPrefix l l' + 1 else 0 := rfl

theorem commonPrefix_le_length (l l' : List α) : commonPrefix l l' ≤ l.length := by
  induction l generalizing l' with
  | nil => exact Nat.zero_le _
  | cons a l ih =>
      cases l' with
      | nil => exact Nat.zero_le _
      | cons b l' =>
          rw [commonPrefix_cons]
          split
          · exact Nat.succ_le_succ (ih l')
          · exact Nat.zero_le _

theorem commonPrefix_comm (l l' : List α) : commonPrefix l l' = commonPrefix l' l := by
  induction l generalizing l' with
  | nil => rw [commonPrefix_nil_right]; rfl
  | cons a l ih =>
      cases l' with
      | nil => rfl
      | cons b l' =>
          rw [commonPrefix_cons, commonPrefix_cons, ih]
          simp only [eq_comm]

/-- The prefixes shared are those up to the length of the longest one. -/
theorem take_prefix_iff {d : Nat} (hd : d ≤ l.length) :
    l.take d <+: l' ↔ d ≤ commonPrefix l l' := by
  induction l generalizing l' d with
  | nil =>
      rw [List.take_nil]
      exact iff_of_true List.nil_prefix hd
  | cons a l ih =>
      cases d with
      | zero => exact iff_of_true List.nil_prefix (Nat.zero_le _)
      | succ d =>
          cases l' with
          | nil =>
              exact iff_of_false (fun h => nomatch List.prefix_nil.mp h) (Nat.not_succ_le_zero d)
          | cons b l' =>
              rw [List.take_succ_cons, List.cons_prefix_cons, commonPrefix_cons,
                ih (Nat.le_of_succ_le_succ hd)]
              by_cases same : a = b
              · rw [if_pos same, and_iff_right same, Nat.succ_le_succ_iff]
              · rw [if_neg same]
                exact iff_of_false (fun h => same h.1) (Nat.not_succ_le_zero d)

/-- What two lists share can be split off both. -/
theorem commonPrefix_eq_add {d : Nat} (hd : d ≤ commonPrefix l l') :
    commonPrefix l l' = d + commonPrefix (l.drop d) (l'.drop d) := by
  induction d generalizing l l' with
  | zero => rw [List.drop_zero, List.drop_zero, Nat.zero_add]
  | succ d ih =>
      cases l with
      | nil => exact absurd hd (Nat.not_succ_le_zero d)
      | cons a l =>
          cases l' with
          | nil => exact absurd hd (Nat.not_succ_le_zero d)
          | cons b l' =>
              rw [commonPrefix_cons] at hd ⊢
              split at hd
              · next same =>
                  rw [if_pos same, List.drop_succ_cons, List.drop_succ_cons,
                    ih (Nat.le_of_succ_le_succ hd), Nat.add_right_comm]
              · exact absurd hd (Nat.not_succ_le_zero d)

theorem drop_lt_drop_of_shared {d : Nat} (hd : d ≤ commonPrefix l l') (hlt : l < l') :
    l.drop d < l'.drop d := by
  have hle := hd.trans (commonPrefix_le_length l l')
  have split := List.prefix_iff_eq_append.mp ((take_prefix_iff hle).mpr hd)
  rw [List.length_take_of_le hle] at split
  rwa [← append_lt_append_iff (l.take d), List.take_append_drop, split]

end CommonPrefix

namespace IsSuffixArray

variable {s p : List α} {sa : List Nat}

theorem getElem?_le (h : IsSuffixArray s sa) {r r' i j : Nat} (hr : sa[r]? = some i)
    (hr' : sa[r']? = some j) (hle : r ≤ r') : s.drop i ≤ s.drop j := by
  obtain rfl | hlt := Nat.eq_or_lt_of_le hle
  · rw [Option.some.inj (hr.symm.trans hr')]
  · exact le_of_lt (h.getElem?_lt hr hr' hlt)

/-- The ranks of the positions that begin with a pattern are consecutive. -/
theorem prefix_of_between (h : IsSuffixArray s sa) {r r' r'' i j k : Nat} (hr : sa[r]? = some i)
    (hr' : sa[r']? = some j) (hr'' : sa[r'']? = some k) (lower : r ≤ r') (upper : r' ≤ r'')
    (hi : p <+: s.drop i) (hk : p <+: s.drop k) : p <+: s.drop j :=
  prefix_of_le_of_le ((le_of_isPrefix hi).trans (h.getElem?_le hr hr' lower))
    (h.getElem?_le hr' hr'' upper) hk

end IsSuffixArray

section Ranks

/-- The lowest rank of a suffix that begins with `p`. -/
def firstRank (s : List α) (sa : List Nat) (p : List α) : Nat :=
  sa.findIdx (fun i => decide (p <+: s.drop i))

/-- How many ranks have one. -/
def rankCount (s : List α) (sa : List Nat) (p : List α) : Nat :=
  sa.countP (fun i => decide (p <+: s.drop i))

variable {s p : List α} {sa : List Nat} {l r : Nat}

theorem firstRank_eq (hlr : l < r) (hr : r ≤ sa.length)
    (interval : ∀ (k : Nat) i, sa[k]? = some i → (l ≤ k ∧ k < r ↔ p <+: s.drop i)) :
    firstRank s sa p = l := by
  have entry : ∀ k (hk : k < sa.length), l ≤ k ∧ k < r ↔ p <+: s.drop sa[k] := fun k hk =>
    interval k _ (List.getElem?_eq_getElem hk)
  rw [firstRank, List.findIdx_eq (by omega)]
  refine ⟨decide_eq_true ((entry l (by omega)).mp ⟨Nat.le_refl l, hlr⟩), fun k hk => ?_⟩
  have outside := (entry k (by omega)).not.mp (by omega)
  exact decide_eq_false outside

theorem rankCount_eq (hlr : l ≤ r) (hr : r ≤ sa.length)
    (interval : ∀ (k : Nat) i, sa[k]? = some i → (l ≤ k ∧ k < r ↔ p <+: s.drop i)) :
    rankCount s sa p = r - l := by
  have entry : ∀ k (hk : k < sa.length), l ≤ k ∧ k < r ↔ p <+: s.drop sa[k] := fun k hk =>
    interval k _ (List.getElem?_eq_getElem hk)
  have front : (sa.take l).countP (fun i => decide (p <+: s.drop i)) = 0 := by
    rw [List.countP_eq_zero]
    intro i hi
    obtain ⟨k, hk, rfl⟩ := List.mem_take_iff_getElem.mp hi
    rw [decide_eq_true_eq, ← entry k (by omega)]
    omega
  have inside : ((sa.drop l).take (r - l)).countP (fun i => decide (p <+: s.drop i)) =
      ((sa.drop l).take (r - l)).length := by
    rw [List.countP_eq_length]
    intro i hi
    obtain ⟨k, hk, rfl⟩ := List.mem_take_iff_getElem.mp hi
    rw [List.getElem_drop, decide_eq_true_eq, ← entry (l + k) (by omega)]
    omega
  have back : (sa.drop r).countP (fun i => decide (p <+: s.drop i)) = 0 := by
    rw [List.countP_eq_zero]
    intro i hi
    obtain ⟨k, hk, rfl⟩ := List.mem_drop_iff_getElem.mp hi
    rw [decide_eq_true_eq, ← entry (r + k) (by omega)]
    omega
  have split : (sa.drop l).drop (r - l) = sa.drop r := by
    rw [List.drop_drop, Nat.add_sub_cancel' hlr]
  rw [rankCount, ← List.take_append_drop l sa, List.countP_append, front,
    ← List.take_append_drop (r - l) (sa.drop l), List.countP_append, split, inside, back,
    List.length_take, List.length_drop]
  omega

end Ranks

end SuffixOrder
