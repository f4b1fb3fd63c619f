import SuffixArray.InducedSorting.Levels
import Mathlib.Data.Nat.Log

/-!
# The levels that the loop of `operator()` reaches

The loop pushes a level and goes on with its summary. What stands at its test is
therefore always the summary of some level string. Every level pushed is longer than
two and at least halves what is left of the string, so the stack stays logarithmic.
-/

namespace SuffixArray.InducedSorting

open Checked SuffixOrder

/-- The variables of `operator()` at the test of its loop. The head of `stack` is
`Stack.back()`. -/
structure Loop where
  stack : List StackElement
  newAlphCont : List Nat
  summS : Nat
  summAlphS : Nat

/-- What `populate` does with the variables of the loop. -/
def Loop.populate (fuel : Nat) (loop : Loop) : Run (List StackElement × List Nat) :=
  InducedSorting.populate fuel loop.stack loop.newAlphCont loop.summS loop.summAlphS

/-- The variables behind a call of `toStack` that pushes onto `stack`. -/
def Pushed.loop (stack : List StackElement) (pushed : Pushed) : Loop :=
  { stack := stack, newAlphCont := pushed.summary, summS := pushed.summS,
    summAlphS := pushed.summAlphS }

theorem Loop.populate_exit {loop : Loop} (full : loop.summS = loop.summAlphS) (fuel : Nat) :
    loop.populate fuel = .ok (loop.stack, loop.newAlphCont) := by
  cases fuel <;> rw [Loop.populate, InducedSorting.populate, if_pos full, pure_eq_ok]

theorem Loop.populate_body {loop : Loop} {pushed : Pushed} (more : loop.summS ≠ loop.summAlphS)
    (run : toStack loop.newAlphCont loop.summAlphS 0 = .ok pushed) (fuel : Nat) :
    loop.populate (fuel + 1) = (pushed.loop (pushed.element :: loop.stack)).populate fuel := by
  rw [Loop.populate, InducedSorting.populate, if_neg more, run, ok_bind]
  rfl

/-- What the test of the loop sees in the course of one run. -/
inductive Reached (data : List UInt8) (min max : Nat) : Loop → Prop
  | first {fse : Pushed} (run : toStack (data.map UInt8.toNat) (max + 1) min = .ok fse) :
      Reached data min max (fse.loop [])
  | next {loop : Loop} {pushed : Pushed} (reached : Reached data min max loop)
      (more : loop.summS ≠ loop.summAlphS)
      (run : toStack loop.newAlphCont loop.summAlphS 0 = .ok pushed) :
      Reached data min max (pushed.loop (pushed.element :: loop.stack))

/-- The loop stands at the summary of a level string. -/
structure AtLevel (s : List Nat) (f : Nat → Nat) (top : Nat) (loop : Loop) : Prop where
  named : Named s f top
  summary : loop.newAlphCont = (lmsIdc s).map f
  summS : loop.summS = loop.newAlphCont.length
  summAlphS : loop.summAlphS = top + 1

section Step

variable {s : List Nat} {lo size top : Nat} {f : Nat → Nat} {loop : Loop} {pushed : Pushed}

/-- What any call of `toStack` leaves behind. -/
theorem atLevel_of_toStack (level : IsLevel s lo size) (run : toStack s size lo = .ok pushed)
    (stack : List StackElement) : ∃ f top, AtLevel s f top (pushed.loop stack) := by
  obtain ⟨f, top, run', named⟩ := toStack_eq level
  obtain rfl := Except.ok.inj (run'.symm.trans run)
  exact ⟨f, top, named, rfl, rfl, rfl⟩

namespace AtLevel

theorem length_eq (h : AtLevel s f top loop) : loop.newAlphCont.length = (lmsIdc s).length := by
  rw [h.summary, List.length_map]

/-- The loop goes on with a level string. -/
theorem isLevel (h : AtLevel s f top loop) (level : IsLevel s lo size) :
    IsLevel loop.newAlphCont 0 loop.summAlphS := by
  rw [h.summary, h.summAlphS]
  exact h.named.isLevel level

/-- The names are the letters from 0 up to the size of the alphabet. -/
theorem mem_iff (h : AtLevel s f top loop) (c : Nat) :
    c ∈ loop.newAlphCont ↔ c < loop.summAlphS := by
  rw [h.summary, h.summAlphS, h.named.mem_summary_iff, Nat.lt_succ_iff]

/-- Only the empty suffix is named 0, and it stands at the end. -/
theorem zero_iff (h : AtLevel s f top loop) (i : Nat) :
    loop.newAlphCont[i]? = some 0 ↔ i + 1 = loop.newAlphCont.length := by
  have last := lmsIdc_last s
  have hpos := length_lmsIdc_pos s
  rw [h.length_eq, h.summary, List.getElem?_map, Option.map_eq_some_iff]
  constructor
  · rintro ⟨q, hq, hzero⟩
    have hnot : ¬ IsLMS s q := fun hlms => absurd hzero (Nat.ne_of_gt (h.named.bounds q hlms).1)
    obtain rfl := (mem_of_lmsIdc hq).resolve_left hnot
    have nodup : (lmsIdc s).Nodup := (lmsIdc_sorted s).imp Nat.ne_of_lt
    have same := (List.getElem?_inj (List.getElem?_eq_some_iff.mp hq).1 nodup).mp
      (hq.trans last.symm)
    omega
  · intro hi
    obtain rfl : i = (lmsIdc s).length - 1 := by omega
    exact ⟨s.length, last, h.named.sentinel⟩

/-- The counters agree just when the names are all different. -/
theorem full_iff (h : AtLevel s f top loop) :
    loop.summS = loop.summAlphS ↔ loop.newAlphCont.Nodup := by
  rw [h.summS, h.summAlphS, h.length_eq, h.summary]
  constructor
  · intro full
    exact (h.named.perm_of_full full).nodup_iff.mpr List.nodup_range
  · intro nodup
    have sub : (lmsIdc s).map f ⊆ List.range (top + 1) := fun c hc =>
      List.mem_range.mpr (Nat.lt_succ_of_le (h.named.mem_summary_iff.mp hc))
    have fewer := (nodup.subperm sub).length_le
    have enough := h.named.names_subperm.length_le
    rw [List.length_map, List.length_range] at fewer enough
    exact Nat.le_antisymm fewer enough

theorem retSummarySA_eq (h : AtLevel s f top loop) (level : IsLevel s lo size)
    (full : loop.summS = loop.summAlphS) : ∃ SA, retSummarySA loop.newAlphCont = .ok SA ∧
      IsSuffixArray loop.newAlphCont SA ∧ SA[0]? = some loop.newAlphCont.length := by
  have fits := (h.isLevel level).lt_pow (Nat.le_refl _)
  rw [h.summS, h.summAlphS, h.length_eq] at full
  have perm := h.named.perm_of_full full
  rw [← h.summary] at perm
  obtain ⟨SA, run, hSA⟩ := InducedSorting.retSummarySA_eq perm fits
  exact ⟨SA, run, hSA, hSA.getElem?_zero⟩

theorem three_le (h : AtLevel s f top loop) (more : loop.summS ≠ loop.summAlphS) :
    3 ≤ loop.newAlphCont.length := by
  rw [h.summS, h.summAlphS, h.length_eq] at more
  rw [h.length_eq]
  exact h.named.three_le more

end AtLevel

end Step

section Run

variable {data : List UInt8} {min max : Nat} {loop : Loop}

/-- The levels seen so far, and how short the string has become over a stack of this size. -/
structure Descent (n : Nat) (loop : Loop) : Prop where
  atLevel : ∃ s lo size f top, IsLevel s lo size ∧ AtLevel s f top loop
  shrunk : 2 ^ (loop.stack.length + 1) * (loop.newAlphCont.length - 1) ≤ n - 1
  stack_le : 2 ^ loop.stack.length ≤ n

namespace Descent

variable {n : Nat}

theorem first {s : List Nat} {lo size : Nat} {fse : Pushed} (level : IsLevel s lo size)
    (run : toStack s size lo = .ok fse) : Descent s.length (fse.loop []) := by
  obtain ⟨f, top, h⟩ := atLevel_of_toStack level run []
  have half := length_lmsIdc_half level.pos
  have hpos := level.pos
  refine ⟨⟨s, lo, size, f, top, level, h⟩, ?_, hpos⟩
  rw [h.length_eq]
  change 2 ^ 1 * _ ≤ _
  omega

/-- A string that enters the body of the loop. -/
theorem entered (h : Descent n loop) (more : loop.summS ≠ loop.summAlphS) :
    IsLevel loop.newAlphCont 0 loop.summAlphS ∧ 3 ≤ loop.newAlphCont.length := by
  obtain ⟨s, lo, size, f, top, level, at_⟩ := h.atLevel
  exact ⟨at_.isLevel level, at_.three_le more⟩

/-- One iteration of the loop. -/
theorem next (h : Descent n loop) (more : loop.summS ≠ loop.summAlphS) {pushed : Pushed}
    (run : toStack loop.newAlphCont loop.summAlphS 0 = .ok pushed) :
    Descent n (pushed.loop (pushed.element :: loop.stack)) := by
  obtain ⟨level, three⟩ := h.entered more
  have half := length_lmsIdc_half level.pos
  have shrunk := h.shrunk
  obtain ⟨f', top', at'⟩ := atLevel_of_toStack level run (pushed.element :: loop.stack)
  refine ⟨⟨_, _, _, f', top', level, at'⟩, ?_, ?_⟩
  · rw [at'.length_eq]
    calc 2 ^ (loop.stack.length + 1 + 1) * ((lmsIdc loop.newAlphCont).length - 1)
        = 2 ^ (loop.stack.length + 1) * (2 * ((lmsIdc loop.newAlphCont).length - 1)) := by
          rw [Nat.pow_succ, Nat.mul_assoc]
      _ ≤ 2 ^ (loop.stack.length + 1) * (loop.newAlphCont.length - 1) :=
          Nat.mul_le_mul_left _ (by omega)
      _ ≤ n - 1 := shrunk
  · calc 2 ^ (loop.stack.length + 1)
        ≤ 2 ^ (loop.stack.length + 1) * (loop.newAlphCont.length - 1) :=
          Nat.le_mul_of_pos_right _ (by omega)
      _ ≤ n - 1 := shrunk
      _ ≤ n := Nat.sub_le n 1

theorem stack_le_log (h : Descent n loop) : loop.stack.length ≤ Nat.log 2 n := by
  apply Nat.le_log_of_pow_le (by omega) h.stack_le

/-- A string that enters the body of the loop, and its summary. -/
theorem body (h : Descent n loop) (more : loop.summS ≠ loop.summAlphS) :
    3 ≤ loop.newAlphCont.length ∧ ∃ pushed,
      toStack loop.newAlphCont loop.summAlphS 0 = .ok pushed ∧
      pushed.summary.length ≤ (loop.newAlphCont.length + 1) / 2 ∧
      pushed.summary.length < loop.newAlphCont.length := by
  obtain ⟨level, three⟩ := h.entered more
  have half := length_lmsIdc_half level.pos
  obtain ⟨f', top', run, _⟩ := toStack_eq level
  refine ⟨three, _, run, ?_⟩
  simp only [List.length_map]
  omega

/-- The stack and the iterations left together bound the rest of the loop. -/
theorem populate_eq (h : Descent n loop) (hreached : Reached data min max loop) :
    ∃ last, Reached data min max last ∧ last.summS = last.summAlphS ∧
      ∀ fuel, Nat.log 2 n ≤ loop.stack.length + fuel →
        loop.populate fuel = .ok (last.stack, last.newAlphCont) := by
  induction hd : Nat.log 2 n - loop.stack.length generalizing loop with
  | zero =>
      have full : loop.summS = loop.summAlphS := by
        by_contra more
        obtain ⟨_, pushed, run, _⟩ := h.body more
        have := (h.next more run).stack_le_log
        simp only [Pushed.loop, List.length_cons] at this
        omega
      exact ⟨loop, hreached, full, fun fuel _ => Loop.populate_exit full fuel⟩
  | succ d ih =>
      by_cases full : loop.summS = loop.summAlphS
      · exact ⟨loop, hreached, full, fun fuel _ => Loop.populate_exit full fuel⟩
      · obtain ⟨_, pushed, run, _⟩ := h.body full
        have deeper : (pushed.loop (pushed.element :: loop.stack)).stack.length =
            loop.stack.length + 1 := rfl
        obtain ⟨last, hlast, exit, rest⟩ := ih (h.next full run) (hreached.next full run) (by omega)
        refine ⟨last, hlast, exit, fun fuel enough => ?_⟩
        cases fuel with
        | zero => omega
        | succ fuel =>
            rw [Loop.populate_body full run]
            exact rest fuel (by omega)

end Descent

/-- Every level of a run descends from the data. -/
theorem Reached.descent (level : IsLevel (data.map UInt8.toNat) min (max + 1))
    (h : Reached data min max loop) : Descent data.length loop := by
  induction h with
  | first run => exact List.length_map UInt8.toNat ▸ Descent.first level run
  | next _ more run ih => exact ih.next more run

/-- The loop ends. Every summary has at most half the letters, rounded up, and what enters the
loop has at least three. -/
theorem populate_terminates (data : List UInt8) (min max : UInt8) (two : 2 ≤ data.length)
    (fits : data.length < 2 ^ 32 - 1) (lower : ∀ c ∈ data, min ≤ c) (upper : ∀ c ∈ data, c ≤ max) :
    ∃ fse last, toStack (data.map UInt8.toNat) (max.toNat + 1) min.toNat = .ok fse ∧
      fse.summary.length ≤ (data.length + 1) / 2 ∧ fse.summary.length < data.length ∧
      Reached data min.toNat max.toNat last ∧ last.summS = last.summAlphS ∧
      (∀ fuel, Nat.log 2 data.length ≤ fuel →
        populate fuel [] fse.summary fse.summS fse.summAlphS =
          .ok (last.stack, last.newAlphCont)) ∧
      ∀ loop, Reached data min.toNat max.toNat loop →
        loop.stack.length ≤ Nat.log 2 data.length ∧
        (loop.summS ≠ loop.summAlphS → 3 ≤ loop.newAlphCont.length ∧ ∃ pushed,
          toStack loop.newAlphCont loop.summAlphS 0 = .ok pushed ∧
          pushed.summary.length ≤ (loop.newAlphCont.length + 1) / 2 ∧
          pushed.summary.length < loop.newAlphCont.length) := by
  have level := isLevel_bytes (by omega) fits
    (fun c hc => UInt8.le_iff_toNat_le.mp (lower c hc))
    (fun c hc => UInt8.le_iff_toNat_le.mp (upper c hc))
  obtain ⟨f, top, run, _⟩ := toStack_eq level
  have half := length_lmsIdc_half level.pos
  rw [List.length_map] at half
  obtain ⟨last, hlast, exit, loops⟩ :=
    ((Reached.first run).descent level).populate_eq (Reached.first run)
  refine ⟨_, last, run, ?_, ?_, hlast, exit, fun fuel enough => loops fuel ?_, fun loop h => ?_⟩
  · rwa [List.length_map]
  · rw [List.length_map]
    omega
  · exact enough.trans (Nat.le_add_left _ _)
  · have descent := h.descent level
    exact ⟨descent.stack_le_log, descent.body⟩

theorem populate_terminates_bababab : ∃ fse, ∃ last : Loop,
    toStack [98, 97, 98, 97, 98, 97, 98] 99 97 = .ok fse ∧ fse.summary.length ≤ 4 ∧
      last.summS = last.summAlphS ∧
      ∀ fuel, 2 ≤ fuel → populate fuel [] fse.summary fse.summS fse.summAlphS =
        .ok (last.stack, last.newAlphCont) := by
  obtain ⟨fse, last, run, half, _, _, exit, loops, _⟩ :=
    populate_terminates [98, 97, 98, 97, 98, 97, 98] 97 98 (by decide) (by decide) (by simp)
      (by simp)
  have hlog : Nat.log 2 7 = 2 := by decide
  exact ⟨fse, last, run, half, exit, fun fuel enough => loops fuel (hlog.trans_le enough)⟩

/-- At the test of the loop the string lists the names from 0 on, with 0 at its end only. The
two counters agree just when no name is used twice, and then the inverse is the suffix array. -/
theorem reached_level (data : List UInt8) (min max : UInt8) (two : 2 ≤ data.length)
    (fits : data.length < 2 ^ 32 - 1) (lower : ∀ c ∈ data, min ≤ c) (upper : ∀ c ∈ data, c ≤ max)
    (loop : Loop) (h : Reached data min.toNat max.toNat loop) :
    (∀ c, c ∈ loop.newAlphCont ↔ c < loop.summAlphS) ∧
    (∀ i : Nat, loop.newAlphCont[i]? = some 0 ↔ i + 1 = loop.newAlphCont.length) ∧
    (loop.summS = loop.summAlphS ↔ loop.newAlphCont.Nodup) ∧
    (loop.summS = loop.summAlphS → ∃ SA, retSummarySA loop.newAlphCont = .ok SA ∧
      IsSuffixArray loop.newAlphCont SA ∧ SA[0]? = some loop.newAlphCont.length) := by
  have level := isLevel_bytes (by omega) fits
    (fun c hc => UInt8.le_iff_toNat_le.mp (lower c hc))
    (fun c hc => UInt8.le_iff_toNat_le.mp (upper c hc))
  obtain ⟨s, lo, size, f, top, level, at_⟩ := (h.descent level).atLevel
  exact ⟨at_.mem_iff, at_.zero_iff, at_.full_iff, at_.retSummarySA_eq level⟩

theorem reached_level_bababab : ∃ loop, Reached [98, 97, 98, 97, 98, 97, 98] 97 98 loop ∧
    loop.newAlphCont = [1, 1, 1, 0] ∧ loop.summS ≠ loop.summAlphS ∧
    ∀ c, c ∈ loop.newAlphCont ↔ c < loop.summAlphS := by
  have run : toStack [98, 97, 98, 97, 98, 97, 98] 99 97 = .ok
      { element := ⟨[98, 97, 98, 97, 98, 97, 98],
          [false, true, false, true, false, true, false, true], [1, 3, 5, 7], [3, 4]⟩
        summary := [1, 1, 1, 0], summS := 4, summAlphS := 2 } := by decide
  have first : Reached [98, 97, 98, 97, 98, 97, 98] 97 98 _ := Reached.first run
  exact ⟨_, first, rfl, by decide, (reached_level _ 97 98 (by decide) (by decide) (by simp)
    (by simp) _ first).1⟩

end Run

end SuffixArray.InducedSorting
