import Mathlib.Data.Nat.Digits.Lemmas

/-!
# Decimal text

What `out << n` writes, the number that a string of digits spells, and lines of text. A
number that is followed by something other than a digit can be read back from its line.
-/

namespace DecimalText

/-- `std::isdigit`. -/
def isDigit (c : UInt8) : Bool := 48 ≤ c && c ≤ 57

def digit (d : Nat) : UInt8 := UInt8.ofNat (48 + d)

/-- `out << n`. -/
def text (n : Nat) : List UInt8 :=
  if n = 0 then [digit 0] else ((Nat.digits 10 n).map digit).reverse

/-- The number that a string of digits spells. -/
def value (digits : List UInt8) : Nat := digits.foldl (fun n c => 10 * n + (c.toNat - 48)) 0

/-- A string that is a number. -/
def Numeral (str : List UInt8) : Prop := str ≠ [] ∧ ∀ c ∈ str, isDigit c = true

instance (str : List UInt8) : Decidable (Numeral str) :=
  inferInstanceAs (Decidable (str ≠ [] ∧ ∀ c ∈ str, isDigit c = true))

/-- The number in front of the first character that is no digit. -/
def leading (str : List UInt8) : Nat := value (str.takeWhile isDigit)

theorem digit_reads : ∀ d < 10, (digit d).toNat - 48 = d ∧ isDigit (digit d) = true ∧
    digit d ≠ 10 := by decide

theorem text_ne_nil (n : Nat) : text n ≠ [] := by
  rw [text]
  split
  · exact List.cons_ne_nil _ _
  · next hn =>
      rw [ne_eq, List.reverse_eq_nil_iff, List.map_eq_nil_iff]
      exact Nat.digits_ne_nil_iff_ne_zero.mpr hn

theorem exists_digit {n : Nat} {c : UInt8} (h : c ∈ text n) : ∃ d < 10, c = digit d := by
  rw [text] at h
  split at h
  · exact ⟨0, by decide, List.mem_singleton.mp h⟩
  · rw [List.mem_reverse, List.mem_map] at h
    obtain ⟨d, hd, rfl⟩ := h
    exact ⟨d, Nat.digits_lt_base (by decide) hd, rfl⟩

theorem isDigit_of_mem {n : Nat} {c : UInt8} (h : c ∈ text n) : isDigit c = true := by
  obtain ⟨d, hd, rfl⟩ := exists_digit h
  exact (digit_reads d hd).2.1

theorem newline_not_mem_text (n : Nat) : (10 : UInt8) ∉ text n := by
  intro h
  obtain ⟨d, hd, same⟩ := exists_digit h
  exact (digit_reads d hd).2.2 same.symm

theorem value_concat (digits : List UInt8) (c : UInt8) :
    value (digits ++ [c]) = 10 * value digits + (c.toNat - 48) := by
  rw [value, List.foldl_append]
  rfl

/-- The digits of `n` spell `n`. -/
theorem value_text (n : Nat) : value (text n) = n := by
  rw [text]
  split
  · next hn => exact hn.symm
  · have spells : ∀ ds : List Nat, (∀ d ∈ ds, d < 10) →
        value (ds.map digit).reverse = Nat.ofDigits 10 ds := by
      intro ds
      induction ds with
      | nil => exact fun _ => rfl
      | cons d ds ih =>
          intro hds
          obtain ⟨hd, rest⟩ := List.forall_mem_cons.mp hds
          rw [List.map_cons, List.reverse_cons, value_concat, ih rest, (digit_reads d hd).1,
            Nat.ofDigits_cons, Nat.add_comm]
    rw [spells _ fun d hd => Nat.digits_lt_base (by decide) hd, Nat.ofDigits_digits]

theorem leading_text (n : Nat) {rest : List UInt8} (stop : ∀ c ∈ rest.head?, isDigit c = false) :
    leading (text n ++ rest) = n := by
  have behind : rest.takeWhile isDigit = [] := by
    cases rest with
    | nil => rfl
    | cons c rest => exact List.takeWhile_cons_of_neg (by rw [stop c rfl]; exact Bool.false_ne_true)
  rw [leading, List.takeWhile_append_of_pos fun c hc => isDigit_of_mem hc, behind, List.append_nil,
    value_text]

/-- The ended lines of a text, of which `line` has been read. -/
def linesFrom : (line : List UInt8) → List UInt8 → List (List UInt8)
  | _, [] => []
  | line, c :: rest => if c = 10 then line :: linesFrom [] rest else linesFrom (line ++ [c]) rest

def lines (str : List UInt8) : List (List UInt8) := linesFrom [] str

theorem linesFrom_append (first line rest : List UInt8) (whole : (10 : UInt8) ∉ line) :
    linesFrom first (line ++ 10 :: rest) = (first ++ line) :: linesFrom [] rest := by
  induction line generalizing first with
  | nil => rw [List.nil_append, linesFrom, if_pos rfl, List.append_nil]
  | cons c line ih =>
      rw [List.mem_cons, not_or] at whole
      obtain ⟨hc, hline⟩ := whole
      rw [List.cons_append, linesFrom, if_neg (Ne.symm hc), ih _ hline, List.append_assoc,
        List.singleton_append]

theorem lines_cons (line rest : List UInt8) (whole : (10 : UInt8) ∉ line) :
    lines (line ++ 10 :: rest) = line :: lines rest := linesFrom_append [] line rest whole

/-- Lines that are printed one by one are read one by one. -/
theorem lines_flatMap {ι : Type} (line : ι → List UInt8) (items : List ι)
    (whole : ∀ i ∈ items, (10 : UInt8) ∉ line i) :
    lines (items.flatMap fun i => line i ++ [10]) = items.map line := by
  induction items with
  | nil => rfl
  | cons i items ih =>
      obtain ⟨hi, rest⟩ := List.forall_mem_cons.mp whole
      rw [List.flatMap_cons, List.append_assoc, List.singleton_append, lines_cons _ _ hi,
        List.map_cons, ih rest]

end DecimalText
