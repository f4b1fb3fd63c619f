import SuffixArray.InducedSorting.Reached

/-!
# The size of the stack

Each level on the stack keeps its string, its types, its LMS positions and its counts. What
is left of the string is at most half of what is pushed, so all levels together hold only a
constant multiple of the first one.
-/

namespace SuffixArray.InducedSorting

/-- The entries of the four vectors. -/
def StackElement.entries (e : StackElement) : Nat :=
  e.alphCont.length + e.sTypes.length + e.summIdc.length + e.counts.length

/-- The entries of all vectors on a stack. -/
def footprint : List StackElement → Nat
  | [] => 0
  | e :: stack => e.entries + footprint stack

variable {data : List UInt8} {min max n : Nat} {loop : Loop}

/-- There are at most as many names as letters. -/
theorem AtLevel.summAlphS_le {s : List Nat} {f : Nat → Nat} {top : Nat}
    (h : AtLevel s f top loop) : loop.summAlphS ≤ loop.newAlphCont.length := by
  have fewer := h.named.names_subperm.length_le
  rw [List.length_range] at fewer
  rw [h.summAlphS, h.summary]
  exact fewer

/-- What `toStack` pushes in the loop. -/
theorem Descent.entries_le (h : Descent n loop) (more : loop.summS ≠ loop.summAlphS)
    {pushed : Pushed} (run : toStack loop.newAlphCont loop.summAlphS 0 = .ok pushed) :
    pushed.element.entries ≤ 6 * (loop.newAlphCont.length - 1) ∧
      2 * (pushed.summary.length - 1) ≤ loop.newAlphCont.length - 1 := by
  obtain ⟨level, three⟩ := h.entered more
  obtain ⟨_, _, _, _, _, _, at_⟩ := h.atLevel
  have names := at_.summAlphS_le
  have half := length_lmsIdc_half level.pos
  obtain ⟨f, top, run', -⟩ := toStack_eq level
  obtain rfl := Except.ok.inj (run'.symm.trans run)
  have counts : (countsOf loop.newAlphCont 0 loop.summAlphS).length = loop.summAlphS := by
    rw [countsOf, List.length_map, List.length_range, Nat.sub_zero]
  simp only [StackElement.entries, length_typesOf, counts, List.length_map]
  omega

/-- A push is paid for by the string that gets shorter. -/
theorem Reached.footprint_le (level : IsLevel (data.map UInt8.toNat) min (max + 1))
    (h : Reached data min max loop) :
    footprint loop.stack + 12 * (loop.newAlphCont.length - 1) ≤ 6 * (data.length - 1) := by
  induction h with
  | first run =>
      have shrunk := ((Reached.first run).descent level).shrunk
      simp only [Pushed.loop, footprint, List.length_nil, Nat.zero_add, Nat.pow_one] at shrunk ⊢
      omega
  | @next loop pushed reached more run ih =>
      have entries := (reached.descent level).entries_le more run
      simp only [Pushed.loop, footprint]
      omega

/-- However many levels there are, their vectors hold less than six entries for each character
of the data. -/
theorem stack_footprint (data : List UInt8) (min max : UInt8) (two : 2 ≤ data.length)
    (fits : data.length < 2 ^ 32 - 1) (lower : ∀ c ∈ data, min ≤ c) (upper : ∀ c ∈ data, c ≤ max)
    (loop : Loop) (h : Reached data min.toNat max.toNat loop) :
    footprint loop.stack < 6 * data.length := by
  have level := isLevel_bytes (by omega) fits
    (fun c hc => UInt8.le_iff_toNat_le.mp (lower c hc))
    (fun c hc => UInt8.le_iff_toNat_le.mp (upper c hc))
  have small := h.footprint_le level
  omega

theorem stack_footprint_bababab : ∃ loop, Reached [98, 97, 98, 97, 98, 97, 98] 97 98 loop ∧
    footprint loop.stack = 12 ∧ footprint loop.stack < 42 := by
  have run : toStack [98, 97, 98, 97, 98, 97, 98] 99 97 = .ok
      { element := ⟨[98, 97, 98, 97, 98, 97, 98],
          [false, true, false, true, false, true, false, true], [1, 3, 5, 7], [3, 4]⟩
        summary := [1, 1, 1, 0], summS := 4, summAlphS := 2 } := by decide
  have pushed : toStack [1, 1, 1, 0] 2 0 = .ok
      { element := ⟨[1, 1, 1, 0], [false, false, false, false, true], [4], [1, 3]⟩
        summary := [0], summS := 1, summAlphS := 1 } := by decide
  have second := @Reached.next [98, 97, 98, 97, 98, 97, 98] 97 98 _ _ (Reached.first run)
    (by decide) pushed
  exact ⟨_, second, rfl,
    stack_footprint _ 97 98 (by decide) (by decide) (by simp) (by simp) _ second⟩

end SuffixArray.InducedSorting
