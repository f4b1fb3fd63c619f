import SuffixArray.InputStream
import Mathlib.Data.Nat.Digits.Lemmas

/-!
# Hexadecimal text

What `out << setw(w) << setfill('0') << hex << n` writes, and what `in >> hex >> n`
makes of a string: an optional sign, an optional `0x`, digits up to the first
character that is none, the largest word when they are too many. A string without
any digit gives zero; a string without any character leaves the target alone.
-/

namespace HexText

open InputStream (isSpace)

/-- The lower case digit of `d`. -/
def digit (d : Nat) : UInt8 := if d < 10 then UInt8.ofNat (48 + d) else UInt8.ofNat (87 + d)

/-- `out << hex << n`. -/
def text (n : Nat) : List UInt8 :=
  if n = 0 then [digit 0] else ((Nat.digits 16 n).map digit).reverse

/-- `out << setw(width) << setfill('0') << hex << n`. -/
def padded (width n : Nat) : List UInt8 :=
  List.replicate (width - (text n).length) (digit 0) ++ text n

def digitValue? (c : UInt8) : Option Nat :=
  if 48 ≤ c ∧ c ≤ 57 then some (c.toNat - 48)
  else if 97 ≤ c ∧ c ≤ 102 then some (c.toNat - 87)
  else if 65 ≤ c ∧ c ≤ 70 then some (c.toNat - 55)
  else none

/-- The number that a string of digits spells. -/
def value (digits : List UInt8) : Nat :=
  digits.foldl (fun n c => 16 * n + (digitValue? c).getD 0) 0

def skipSign (str : List UInt8) : List UInt8 :=
  match str with
  | c :: rest => if c = 45 ∨ c = 43 then rest else str
  | [] => []

/-- Drops `0x` or `0X`. -/
def skipBase (str : List UInt8) : List UInt8 :=
  match str with
  | c :: x :: rest => if c = 48 ∧ (x = 120 ∨ x = 88) then rest else str
  | _ => str

/-- `in >> hex >> n` on a stream of the characters `str`, for an unsigned word. -/
def parse (bits : Nat) (str : List UInt8) : Option Nat :=
  match str.dropWhile isSpace with
  | [] => none
  | c :: rest =>
    let n := value ((skipBase (skipSign (c :: rest))).takeWhile (fun d => (digitValue? d).isSome))
    if 2 ^ bits ≤ n then some (2 ^ bits - 1)
    else if c = 45 then some ((2 ^ bits - n) % 2 ^ bits)
    else some n

/-- Each digit, read on its own: it stands for itself, and it is neither white
space nor a sign nor the letter of the base. -/
theorem digit_reads : ∀ d < 16, digitValue? (digit d) = some d ∧ isSpace (digit d) = false ∧
    digit d ≠ 45 ∧ digit d ≠ 43 ∧ digit d ≠ 120 ∧ digit d ≠ 88 := by decide

/-- A string of lower case digits. -/
def IsDigits (str : List UInt8) : Prop := ∀ c ∈ str, ∃ d < 16, c = digit d

theorem IsDigits.visible {str : List UInt8} (h : IsDigits str) :
    ∀ c ∈ str, isSpace c = false := by
  intro c hc
  obtain ⟨d, hd, rfl⟩ := h c hc
  exact (digit_reads d hd).2.1

theorem text_ne_nil (n : Nat) : text n ≠ [] := by
  rw [text]
  by_cases hn : n = 0
  · rw [if_pos hn]
    exact List.cons_ne_nil _ _
  · rw [if_neg hn, ne_eq, List.reverse_eq_nil_iff, List.map_eq_nil_iff]
    exact Nat.digits_ne_nil_iff_ne_zero.mpr hn

theorem isDigits_text (n : Nat) : IsDigits (text n) := by
  intro c hc
  rw [text] at hc
  by_cases hn : n = 0
  · rw [if_pos hn, List.mem_singleton] at hc
    exact ⟨0, by decide, hc⟩
  · rw [if_neg hn, List.mem_reverse, List.mem_map] at hc
    obtain ⟨d, hd, rfl⟩ := hc
    exact ⟨d, Nat.digits_lt_base (by decide) hd, rfl⟩

theorem isDigits_padded (width n : Nat) : IsDigits (padded width n) := by
  intro c hc
  cases List.mem_append.mp hc with
  | inl fill => exact ⟨0, by decide, List.eq_of_mem_replicate fill⟩
  | inr hc => exact isDigits_text n c hc

theorem padded_ne_nil (width n : Nat) : padded width n ≠ [] :=
  List.append_ne_nil_of_right_ne_nil _ (text_ne_nil n)

/-- Smaller numbers have no more digits. -/
theorem length_text_mono {n m : Nat} (h : n ≤ m) : (text n).length ≤ (text m).length := by
  by_cases hn : n = 0
  · subst hn
    exact List.length_pos_iff.mpr (text_ne_nil m)
  · have hm : m ≠ 0 := by omega
    rw [text, text, if_neg hn, if_neg hm, List.length_reverse, List.length_reverse,
      List.length_map, List.length_map]
    exact Nat.le_length_digits_le 16 n m h

/-- As many digits as the number needs, and no more. Zero needs one. -/
theorem length_text_bounds (n : Nat) : n < 16 ^ (text n).length ∧
    ((text n).length = 1 ∨ 16 ^ ((text n).length - 1) ≤ n) := by
  by_cases hn : n = 0
  · subst hn
    exact ⟨by decide, Or.inl rfl⟩
  · have digits : (text n).length = (Nat.digits 16 n).length := by
      rw [text, if_neg hn, List.length_reverse, List.length_map]
    have some : 0 < (Nat.digits 16 n).length :=
      List.length_pos_iff.mpr (Nat.digits_ne_nil_iff_ne_zero.mpr hn)
    have needed : 16 ^ (Nat.digits 16 n).length ≤ 16 * n :=
      Nat.base_pow_length_digits_le 16 n (by decide) hn
    rw [digits]
    refine ⟨Nat.lt_base_pow_length_digits (by decide), Or.inr ?_⟩
    rw [← Nat.sub_add_cancel some, Nat.pow_succ'] at needed
    exact Nat.le_of_mul_le_mul_left needed (by decide)

theorem length_padded {width n : Nat} (h : (text n).length ≤ width) :
    (padded width n).length = width := by
  rw [padded, List.length_append, List.length_replicate]
  omega

theorem value_append (first second : List UInt8) :
    value (first ++ second) =
      second.foldl (fun n c => 16 * n + (digitValue? c).getD 0) (value first) :=
  List.foldl_append

theorem value_zeros (k : Nat) : value (List.replicate k (digit 0)) = 0 := by
  induction k with
  | zero => rfl
  | succ k ih =>
      rw [List.replicate_succ', value_append, ih]
      rfl

/-- The digits of `n` spell `n`. -/
theorem value_text (n : Nat) : value (text n) = n := by
  rw [text]
  by_cases hn : n = 0
  · rw [if_pos hn, hn]
    rfl
  · rw [if_neg hn]
    have spells : ∀ ds : List Nat, (∀ d ∈ ds, d < 16) →
        value (ds.map digit).reverse = Nat.ofDigits 16 ds := by
      intro ds
      induction ds with
      | nil => exact fun _ => rfl
      | cons d ds ih =>
          intro hds
          obtain ⟨hd, rest⟩ := List.forall_mem_cons.mp hds
          rw [List.map_cons, List.reverse_cons, value_append, ih rest, List.foldl_cons,
            List.foldl_nil, (digit_reads d hd).1, Option.getD_some, Nat.ofDigits_cons,
            Nat.add_comm]
    rw [spells _ fun d hd => Nat.digits_lt_base (by decide) hd, Nat.ofDigits_digits]

theorem value_padded (width n : Nat) : value (padded width n) = n := by
  rw [padded, value_append, value_zeros]
  exact value_text n

theorem parse_isDigits {bits : Nat} {str : List UInt8} (hne : str ≠ []) (h : IsDigits str)
    (fits : value str < 2 ^ bits) : parse bits str = some (value str) := by
  obtain ⟨c, rest, rfl⟩ := List.exists_cons_of_ne_nil hne
  obtain ⟨d, hd, rfl⟩ := h c List.mem_cons_self
  obtain ⟨-, space, minus, plus, -⟩ := digit_reads d hd
  have start : (digit d :: rest).dropWhile isSpace = digit d :: rest :=
    List.dropWhile_cons_of_neg (by rw [space]; exact Bool.false_ne_true)
  have unsigned : skipSign (digit d :: rest) = digit d :: rest :=
    if_neg (not_or.mpr ⟨minus, plus⟩)
  have unmarked : skipBase (digit d :: rest) = digit d :: rest := by
    cases rest with
    | nil => rfl
    | cons x rest =>
        obtain ⟨e, he, rfl⟩ := h x (List.mem_cons_of_mem _ List.mem_cons_self)
        obtain ⟨-, -, -, -, small, large⟩ := digit_reads e he
        exact if_neg fun mark => mark.2.elim small large
  have all : (digit d :: rest).takeWhile (fun c => (digitValue? c).isSome) = digit d :: rest := by
    apply List.takeWhile_eq_self_iff.mpr
    intro c hc
    obtain ⟨e, he, rfl⟩ := h c hc
    rw [(digit_reads e he).1]
    rfl
  rw [parse, start]
  simp only [unsigned, unmarked, all]
  rw [if_neg (Nat.not_le_of_lt fits), if_neg minus]

/-- A padded word reads back, whatever it was padded to. -/
theorem parse_padded {bits n : Nat} (width : Nat) (fits : n < 2 ^ bits) :
    parse bits (padded width n) = some n := by
  have := parse_isDigits (padded_ne_nil width n) (isDigits_padded width n)
    (by rwa [value_padded] : value (padded width n) < 2 ^ bits)
  rwa [value_padded] at this

end HexText
