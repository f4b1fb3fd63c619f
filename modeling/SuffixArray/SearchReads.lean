import SuffixArray.LcpSearch

/-!
# What `lower_bound` reads

`std::equal` gets the end of the data but not that of the pattern. A probe of a suffix
that goes on behind the pattern therefore reads `val[val.size()]`, and no other read
leaves its vector. Whether the search comes to such a suffix before it returns depends
on the match that it probes first. `firstMatch` finds that rank from the suffix order
alone: halve until a rank shares one more character with the pattern, go on with all
ranks that share as much as that one does.
-/

namespace SuffixArray.Search

open Checked SuffixOrder
open InducedSorting (idxBits)
open Lcp (ExactLcp)
open LcpTables (ExactTables makeLcpLr)

/-- Where a rank lies, seen from those whose suffixes begin with `p`. -/
def sideOf (data : List UInt8) (SA : List Nat) (p : List UInt8) (i : Nat) : Ordering :=
  match SA[i]? with
  | none => .gt
  | some q => if p <+: data.drop q then .eq else if data.drop q < p then .lt else .gt

/-- The match that halving a window meets first. All of the window shares the first
`depth` characters of the pattern. -/
def firstMatch (data : List UInt8) (SA : List Nat) (val : List UInt8) (depth first count : Nat) :
    Option Nat :=
  match Bisection.meet (sideOf data SA (val.take (depth + 1))) first count with
  | none => none
  | some i =>
    let longer := commonPrefix (data.drop (SA.getD i 0)) val
    if depth < longer ∧ longer < val.length then
      firstMatch data SA val longer (firstRank data SA (val.take longer))
        (rankCount data SA (val.take longer))
    else
      some i
termination_by val.length - depth
decreasing_by
  change val.length - longer < val.length - depth
  omega

/-- Every element read lies inside its vector, nothing being readable behind the pattern,
and whatever is there no window is deeper than the pattern is long. -/
structure StaysInside (fuel : Nat) (data : List UInt8) (SA : List Nat)
    (lcpL lcpR : List (List Nat)) (val : List UInt8) : Prop where
  returns : ∃ range, lowerBound fuel (fun _ => none) data SA lcpL lcpR val = .ok range
  depth_le : ∀ past w, Visited past data SA lcpL lcpR val w → w.depthBef ≤ val.length

variable {data val : List UInt8} {SA lcp : List Nat} {lcpL lcpR : List (List Nat)} {past : Past}

section Overrun

/-- Behind a match the data go on: the element behind the pattern is read. -/
theorem equalVal_overrun (rest p q depth : Nat) (smaller : Bool)
    (shared : val.drop q <+: data.drop p) (more : p + (val.length - q) < data.length)
    (hp : p + rest = data.length) (hq : q ≤ val.length) (fits : depth + rest < 2 ^ idxBits) :
    equalVal data val (fun _ => none) rest p q depth smaller = .error .outOfRange := by
  induction rest generalizing p q depth with
  | zero => omega
  | succ rest ih =>
      have hlt : p < data.length := by omega
      rw [equalVal, load_of_lt hlt, ok_bind]
      obtain hqlt | rfl := Nat.lt_or_eq_of_le hq
      · rw [List.drop_eq_getElem_cons hqlt, List.drop_eq_getElem_cons hlt,
          List.cons_prefix_cons] at shared
        obtain ⟨same, tail⟩ := shared
        rw [readVal_eq hqlt, ok_bind, same, if_neg (lt_irrefl _), if_neg (lt_irrefl _),
          inc_of_lt (by omega), ok_bind]
        apply ih <;> first | exact tail | omega
      · rw [readVal, if_pos rfl, error_bind]

theorem stopsBehind_of_ended (past : Past) {p : Nat}
    (ended : Occurs data val p → data.length ≤ p + val.length) : StopsBehind data val past p := by
  intro occurs c hc
  rw [List.getElem?_eq_none (ended occurs)] at hc
  contradiction

variable {w : Window} {start c : Nat}

theorem Covers.step_overrun (h : Covers data SA val w) (fits : data.length + 1 < 2 ^ idxBits)
    (hsa : IsSuffixArray data SA) (hcount : w.count ≠ 0)
    (hstart : SA[w.fir + w.count / 2]? = some start) (occurs : Occurs data val start)
    (more : start + val.length < data.length) :
    lowerBoundStep (fun _ => none) data SA lcpL lcpR val w = .error .outOfRange := by
  have hinside := h.inside
  have hdepth := h.depth_lt
  have length := hsa.length_eq
  have hprobe := h.probe_le hsa hcount hstart
  have compared := equalVal_overrun (data.length - (start + w.depthBef)) (start + w.depthBef)
    w.depthBef 0 w.smaller ((h.occurs_iff hcount hstart).mp occurs) (by omega) (by omega) hdepth.le
    (by omega)
  rw [lowerBoundStep, add_of_lt (by omega), ok_bind, load_eq_ok.mpr hstart, ok_bind,
    sub_of_le hprobe, ok_bind, compared, error_bind]

/-- So an iteration that returns has not read there. -/
theorem Covers.ended_of_returns (h : Covers data SA val w) (fits : data.length + 1 < 2 ^ idxBits)
    (hsa : IsSuffixArray data SA) (hcount : w.count ≠ 0)
    (hstart : SA[w.fir + w.count / 2]? = some start) {res : (Nat × Nat) ⊕ Window}
    (run : lowerBoundStep (fun _ => none) data SA lcpL lcpR val w = .ok res)
    (occurs : Occurs data val start) : data.length ≤ start + val.length := by
  by_contra more
  rw [h.step_overrun fits hsa hcount hstart occurs (Nat.lt_of_not_le more)] at run
  exact nomatch run

end Overrun

section FirstMatch

theorem lt_take_iff {p x : List UInt8} (hp : p <+: val) (hx : ¬ p <+: x) : x < p ↔ x < val := by
  constructor
  · exact fun hlt => lt_of_lt_of_le hlt (le_of_isPrefix hp)
  · intro hlt
    by_contra hge
    exact hx (prefix_of_le_of_le (not_lt.mp hge) (le_of_lt hlt) hp)

/-- The first match from a window on. -/
def Window.firstMatch (data : List UInt8) (SA : List Nat) (val : List UInt8) (w : Window) :
    Option Nat := Search.firstMatch data SA val w.depthBef w.fir w.count

theorem Window.firstMatch_zero {w : Window} (hzero : w.count = 0) :
    w.firstMatch data SA val = none := by
  rw [Window.firstMatch, Search.firstMatch, hzero, Bisection.meet_zero]

variable {w : Window} {start c : Nat} (h : Covers data SA val w) (hcount : w.count ≠ 0)
  (hstart : SA[w.fir + w.count / 2]? = some start)
  (hc : commonPrefix (data.drop (start + w.depthBef)) (val.drop w.depthBef) = c)

include h hcount hstart hc

/-- The window's depth and what the probe matched more. -/
theorem Covers.commonPrefix_eq : commonPrefix (data.drop start) val = w.depthBef + c := by
  have shared := h.shared _ _ (Nat.le_add_right _ _) (by omega) hstart
  have hle := (take_prefix_iff h.depth_lt.le).mp shared
  rw [commonPrefix_comm] at hle
  rw [commonPrefix_eq_add hle, List.drop_drop, hc]

theorem Covers.take_prefix_probe {d : Nat} (hd : d ≤ val.length) :
    val.take d <+: data.drop start ↔ d ≤ w.depthBef + c := by
  rw [take_prefix_iff hd, commonPrefix_comm, h.commonPrefix_eq hcount hstart hc]

theorem Covers.occurs_iff_depth : Occurs data val start ↔ val.length ≤ w.depthBef + c := by
  have := h.take_prefix_probe hcount hstart hc (Nat.le_refl val.length)
  rwa [List.take_length] at this

theorem Covers.sideOf_eq (hpos : c ≠ 0) :
    sideOf data SA (val.take (w.depthBef + 1)) (w.fir + w.count / 2) = .eq := by
  rw [sideOf, hstart]
  have shared := h.take_prefix_probe hcount hstart hc (Nat.succ_le_of_lt h.depth_lt)
  exact if_pos (shared.mpr (by omega))

theorem Covers.sideOf_ne (hzero : c = 0) :
    sideOf data SA (val.take (w.depthBef + 1)) (w.fir + w.count / 2) =
      if data.drop start < val then .lt else .gt := by
  have hno : ¬ val.take (w.depthBef + 1) <+: data.drop start := by
    rw [h.take_prefix_probe hcount hstart hc (Nat.succ_le_of_lt h.depth_lt)]
    omega
  rw [sideOf, hstart]
  simp only
  rw [if_neg hno]
  exact if_congr (lt_take_iff (List.take_prefix _ _) hno) rfl rfl

theorem Covers.firstMatch_front (hzero : c = 0) (less : data.drop start < val) (smaller : Bool) :
    Window.firstMatch data SA val
      ⟨w.fir + w.count / 2 + 1, w.count - (w.count / 2 + 1), w.depthBef, smaller⟩ =
      w.firstMatch data SA val := by
  have side := h.sideOf_ne hcount hstart hc hzero
  rw [if_pos less] at side
  rw [Window.firstMatch, Window.firstMatch, Search.firstMatch, Search.firstMatch,
    Bisection.meet_of_lt hcount side]

theorem Covers.firstMatch_back (hzero : c = 0) (greater : ¬ data.drop start < val)
    (smaller : Bool) :
    Window.firstMatch data SA val ⟨w.fir, w.count / 2, w.depthBef, smaller⟩ =
      w.firstMatch data SA val := by
  have side := h.sideOf_ne hcount hstart hc hzero
  rw [if_neg greater] at side
  rw [Window.firstMatch, Window.firstMatch, Search.firstMatch, Search.firstMatch,
    Bisection.meet_of_gt hcount side]

theorem Covers.firstMatch_eq (hpos : c ≠ 0) : w.firstMatch data SA val =
    if w.depthBef + c < val.length then
      firstMatch data SA val (w.depthBef + c) (firstRank data SA (val.take (w.depthBef + c)))
        (rankCount data SA (val.take (w.depthBef + c)))
    else some (w.fir + w.count / 2) := by
  have probed : SA.getD (w.fir + w.count / 2) 0 = start := by
    rw [List.getD_eq_getElem?_getD, hstart, Option.getD_some]
  rw [Window.firstMatch, Search.firstMatch,
    Bisection.meet_of_eq hcount (h.sideOf_eq hcount hstart hc hpos)]
  simp only [probed, h.commonPrefix_eq hcount hstart hc]
  exact if_congr (and_iff_right (by omega)) rfl rfl

end FirstMatch

section Steps

variable {w w' : Window} {start c : Nat}

/-- An iteration that goes on leaves the first match where it is. -/
theorem Covers.firstMatch_step (h : Covers data SA val w) (fits : data.length + 1 < 2 ^ idxBits)
    (hsa : IsSuffixArray data SA) (hlcp : ExactLcp data SA lcp)
    (tables : ExactTables lcp lcpL lcpR) (hcount : w.count ≠ 0)
    (hstart : SA[w.fir + w.count / 2]? = some start) (stops : StopsBehind data val past start)
    (run : lowerBoundStep past data SA lcpL lcpR val w = .ok (.inr w')) :
    w'.firstMatch data SA val = w.firstMatch data SA val := by
  obtain ⟨c, hc⟩ : ∃ c, commonPrefix (data.drop (start + w.depthBef)) (val.drop w.depthBef) = c :=
    ⟨_, rfl⟩
  obtain ⟨flag, probed, decides⟩ := h.probe fits hsa hcount hstart hc stops
  rw [probed] at run
  by_cases hzero : c = 0
  · rw [if_neg (not_not.mpr hzero)] at run
    cases flag with
    | true =>
        simp only [if_true, bind_eq_ok, inc, add_eq_ok, sub_eq_ok] at run
        obtain ⟨_, ⟨-, rfl⟩, _, ⟨-, rfl⟩, hw⟩ := run
        obtain rfl := Sum.inr.inj (Except.ok.inj hw)
        refine h.firstMatch_front hcount hstart hc hzero ?_ true
        by_cases hend : data.length ≤ start + w.depthBef
        · exact h.lt_of_ended hcount hstart hend
        · exact (decides hzero (Nat.lt_of_not_le hend)).mp rfl
    | false =>
        obtain rfl := Sum.inr.inj (Except.ok.inj run)
        by_cases hend : data.length ≤ start + w.depthBef
        · -- The window has one rank, and neither half has any.
          have hone := h.single hsa hcount hstart hend
          rw [Window.firstMatch_zero (by simp only; omega),
            ← h.firstMatch_front hcount hstart hc hzero (h.lt_of_ended hcount hstart hend) false,
            Window.firstMatch_zero (by simp only; omega)]
        · have decides := decides hzero (Nat.lt_of_not_le hend)
          exact h.firstMatch_back hcount hstart hc hzero
            (fun hlt => Bool.false_ne_true (decides.mpr hlt)) false
  · have hle := h.matched_le hsa hcount hstart hc
    obtain ⟨l, r, hl, hr, hlr, hrle, interval⟩ := jump_eq fits hsa hlcp tables hstart
      (show w.depthBef + c ≠ 0 by omega) hle.1 (h.deeper hcount hstart hc)
    rw [if_pos hzero, hl, ok_bind, hr, ok_bind] at run
    by_cases hend : w.depthBef + c = val.length
    · rw [if_pos hend] at run
      exact nomatch Except.ok.inj run
    · rw [if_neg hend, sub_of_le hlr.le, ok_bind] at run
      obtain rfl := Sum.inr.inj (Except.ok.inj run)
      rw [h.firstMatch_eq hcount hstart hc hzero, if_pos (by omega), Window.firstMatch,
        firstRank_eq hlr hrle interval, rankCount_eq hlr.le hrle interval]

/-- An iteration that answers has probed a match. -/
theorem Covers.occurs_of_answer (h : Covers data SA val w)
    (fits : data.length + 1 < 2 ^ idxBits) (hsa : IsSuffixArray data SA) (hcount : w.count ≠ 0)
    (hstart : SA[w.fir + w.count / 2]? = some start) (stops : StopsBehind data val past start)
    {range : Nat × Nat} (run : lowerBoundStep past data SA lcpL lcpR val w = .ok (.inl range)) :
    Occurs data val start := by
  obtain ⟨c, hc⟩ : ∃ c, commonPrefix (data.drop (start + w.depthBef)) (val.drop w.depthBef) = c :=
    ⟨_, rfl⟩
  obtain ⟨flag, probed, -⟩ := h.probe fits hsa hcount hstart hc stops
  rw [h.occurs_iff_depth hcount hstart hc]
  rw [probed] at run
  by_cases hzero : c = 0
  · rw [if_neg (not_not.mpr hzero)] at run
    cases flag with
    | true =>
        simp only [if_true, bind_eq_ok] at run
        obtain ⟨_, -, _, -, hw⟩ := run
        exact nomatch Except.ok.inj hw
    | false => exact nomatch Except.ok.inj run
  · rw [if_pos hzero] at run
    by_cases hend : w.depthBef + c = val.length
    · exact hend.ge
    · simp only [bind_eq_ok, if_neg hend] at run
      obtain ⟨_, -, _, -, _, -, hw⟩ := run
      exact nomatch Except.ok.inj hw

/-- A probed match is the first one. -/
theorem Covers.firstMatch_of_occurs (h : Covers data SA val w) (hcount : w.count ≠ 0)
    (hstart : SA[w.fir + w.count / 2]? = some start) (occurs : Occurs data val start) :
    w.firstMatch data SA val = some (w.fir + w.count / 2) := by
  obtain ⟨c, hc⟩ : ∃ c, commonPrefix (data.drop (start + w.depthBef)) (val.drop w.depthBef) = c :=
    ⟨_, rfl⟩
  have hdepth := h.depth_lt
  have whole := (h.occurs_iff_depth hcount hstart hc).mp occurs
  rw [h.firstMatch_eq hcount hstart hc (by omega), if_neg (by omega)]

end Steps

/-- The pattern does not occur, or the first match is the end of the data. -/
def EndsFirst (data : List UInt8) (SA : List Nat) (val : List UInt8) (first : Option Nat) : Prop :=
  (∀ p, ¬ Occurs data val p) ∨ ∃ i p, first = some i ∧ SA[i]? = some p ∧ data.drop p = val

section Runs

variable {w w' : Window} {start : Nat}

/-- Then no probe runs on behind the pattern, whatever is there. -/
theorem Covers.stops (h : Covers data SA val w) (hcount : w.count ≠ 0)
    (hstart : SA[w.fir + w.count / 2]? = some start)
    (ends : EndsFirst data SA val (w.firstMatch data SA val)) (past : Past) :
    StopsBehind data val past start := by
  refine stopsBehind_of_ended past (fun occurs => ?_)
  obtain none | ⟨i, p, hi, hp, hend⟩ := ends
  · exact absurd occurs (none start)
  · rw [h.firstMatch_of_occurs hcount hstart occurs, Option.some.injEq] at hi
    obtain rfl : start = p := by rwa [← hi, hstart, Option.some.injEq] at hp
    have := congrArg List.length hend
    rw [List.length_drop] at this
    omega

/-- Every occurrence has a rank. -/
theorem not_occurs_of_ranks (hsa : IsSuffixArray data SA) (nonempty : val ≠ [])
    (none : ∀ (k : Nat) p, SA[k]? = some p → ¬ Occurs data val p) (p : Nat) :
    ¬ Occurs data val p := by
  intro occurs
  obtain hgt | hle := Nat.lt_or_ge data.length p
  · rw [Occurs, List.drop_eq_nil_of_le hgt.le] at occurs
    exact nonempty (List.prefix_nil.mp occurs)
  · obtain ⟨r, hr, rfl⟩ := hsa.exists_rank hle
    exact none r _ (List.getElem?_eq_getElem hr) occurs

theorem Covers.endsFirst_of_empty (h : Covers data SA val w) (hsa : IsSuffixArray data SA)
    (hzero : w.count = 0) (first : Option Nat) : EndsFirst data SA val first :=
  Or.inl (not_occurs_of_ranks hsa (List.ne_nil_of_length_pos (Nat.zero_lt_of_lt h.depth_lt))
    (h.absent hzero))

variable (fits : data.length + 1 < 2 ^ idxBits) (hsa : IsSuffixArray data SA)
  (hlcp : ExactLcp data SA lcp) (tables : ExactTables lcp lcpL lcpR)

include fits hsa hlcp tables

/-- A run that nothing stops shows that the first match is the end of the data. -/
theorem endsFirst_of_loop {range : Nat × Nat} (fuel : Nat) (h : Covers data SA val w)
    (run : lowerBoundLoop (fun _ => none) data SA lcpL lcpR val fuel w = .ok range) :
    EndsFirst data SA val (w.firstMatch data SA val) := by
  induction fuel generalizing w with
  | zero =>
      rw [lowerBoundLoop] at run
      by_cases hzero : w.count = 0
      · exact h.endsFirst_of_empty hsa hzero _
      · rw [if_neg hzero] at run
        cases run
  | succ fuel ih =>
      rw [lowerBoundLoop] at run
      by_cases hzero : w.count = 0
      · exact h.endsFirst_of_empty hsa hzero _
      · rw [if_neg hzero] at run
        obtain ⟨res, hstep, rest⟩ := bind_eq_ok.mp run
        obtain ⟨start, hstart⟩ := h.exists_probe hzero
        have ended := h.ended_of_returns fits hsa hzero hstart hstep
        have stops := stopsBehind_of_ended (fun _ => none) ended
        cases res with
        | inl answer =>
            have occurs := h.occurs_of_answer fits hsa hzero hstart stops hstep
            refine Or.inr ⟨_, start, h.firstMatch_of_occurs hzero hstart occurs, hstart, ?_⟩
            refine (occurs.eq_of_length_le ?_).symm
            rw [List.length_drop]
            have := ended occurs
            omega
        | inr w' =>
            have next := lowerBoundStep_result fits hsa hlcp tables h hzero hstart stops hstep
            rw [← h.firstMatch_step fits hsa hlcp tables hzero hstart stops hstep]
            exact ih next.1 rest

/-- An iteration from such a window leads to such a window again. -/
theorem Covers.endsFirst_step (h : Covers data SA val w) (hcount : w.count ≠ 0)
    (ends : EndsFirst data SA val (w.firstMatch data SA val))
    (run : lowerBoundStep past data SA lcpL lcpR val w = .ok (.inr w')) :
    EndsFirst data SA val (w'.firstMatch data SA val) := by
  obtain ⟨start, hstart⟩ := h.exists_probe hcount
  rwa [h.firstMatch_step fits hsa hlcp tables hcount hstart (h.stops hcount hstart ends past) run]

/-- Every window reached covers the matches and still has the same first match. -/
theorem Visited.covers (nonempty : val ≠ [])
    (ends : EndsFirst data SA val (firstMatch data SA val 0 0 SA.length))
    (visited : Visited past data SA lcpL lcpR val w) :
    Covers data SA val w ∧ EndsFirst data SA val (w.firstMatch data SA val) := by
  induction visited with
  | start => exact ⟨Covers.start SA nonempty, ends⟩
  | step before more run ih =>
      obtain ⟨h, hends⟩ := ih
      obtain ⟨start, hstart⟩ := h.exists_probe more
      have next := lowerBoundStep_result fits hsa hlcp tables h more hstart
        (h.stops more hstart hends _) run
      exact ⟨next.1, h.endsFirst_step fits hsa hlcp tables more hends run⟩

/-- A pattern that occurs at most at the end of the data is searched without an overrun. -/
theorem staysInside_of_only_end (nonempty : val ≠ [])
    (only : ∀ p, Occurs data val p → data.length ≤ p + val.length) {fuel : Nat}
    (enough : (data.length + 1) * (data.length + 2) ≤ fuel) :
    StaysInside fuel data SA lcpL lcpR val := by
  obtain ⟨range, run, -⟩ := lowerBoundLoop_eq fits hsa hlcp tables (fun _ => True)
    (fun _ start _ _ _ _ => stopsBehind_of_ended (fun _ => none) (only start))
    (fun _ _ _ _ _ _ => trivial) fuel trivial (Covers.start SA nonempty)
    ((measure_start hsa).trans enough)
  have ends := endsFirst_of_loop fits hsa hlcp tables fuel (Covers.start SA nonempty) run
  exact ⟨⟨range, run⟩, fun _ _ visited =>
    (Visited.covers fits hsa hlcp tables nonempty ends visited).1.depth_lt.le⟩

/-- One that occurs, but not at the end of the data, never is. -/
theorem isSuffix_of_staysInside (nonempty : val ≠ []) {p fuel : Nat}
    (occurs : Occurs data val p) (inside : StaysInside fuel data SA lcpL lcpR val) :
    val <:+ data := by
  obtain ⟨range, run⟩ := inside.returns
  obtain none | ⟨_, q, -, -, hend⟩ :=
    endsFirst_of_loop fits hsa hlcp tables fuel (Covers.start SA nonempty) run
  · exact absurd occurs (none p)
  · exact hend ▸ List.drop_suffix q data

end Runs

/-- The search stays inside its vectors if and only if the pattern does not occur or the
match that is met first is the end of the data. -/
theorem staysInside_iff (two : 2 ≤ data.length) (fits : data.length < 2 ^ 32 - 1)
    (hsa : IsSuffixArray data SA) (hlcp : ExactLcp data SA lcp)
    (built : makeLcpLr SA lcp [] [] = .ok (lcpL, lcpR)) (val : List UInt8) (nonempty : val ≠ [])
    {fuel : Nat} (enough : (data.length + 1) * (data.length + 2) ≤ fuel) :
    StaysInside fuel data SA lcpL lcpR val ↔ (∀ p, ¬ Occurs data val p) ∨
      ∃ i p, firstMatch data SA val 0 0 SA.length = some i ∧ SA[i]? = some p ∧
        data.drop p = val := by
  have small : data.length + 1 < 2 ^ idxBits := by
    simp only [idxBits]
    omega
  have tables := exactTables_of_built small two hsa hlcp built
  constructor
  · rintro ⟨⟨range, run⟩, -⟩
    exact endsFirst_of_loop small hsa hlcp tables fuel (Covers.start SA nonempty) run
  · intro ends
    have atStart : EndsFirst data SA val (Window.firstMatch data SA val
        { fir := 0, count := SA.length, depthBef := 0, smaller := false }) := ends
    refine ⟨?_, fun past w visited => ?_⟩
    · obtain ⟨range, run, -⟩ := lowerBoundLoop_eq small hsa hlcp tables
        (fun w => EndsFirst data SA val (w.firstMatch data SA val))
        (fun w start hw h hcount hstart => h.stops hcount hstart hw (fun _ => none))
        (fun w w' hw h hcount run => h.endsFirst_step small hsa hlcp tables hcount hw run)
        fuel atStart (Covers.start SA nonempty) ((measure_start hsa).trans enough)
      exact ⟨range, run⟩
    · exact (Visited.covers small hsa hlcp tables nonempty ends visited).1.depth_lt.le

/-- The only `b` in `ab` is the end. -/
theorem staysInside_iff_ab :
    StaysInside 12 [97, 98] [2, 0, 1] [[0], [], []] [[0], [], []] [98] := by
  have hlcp : ExactLcp [97, 98] [2, 0, 1] [0, 0] := by decide
  have built : makeLcpLr [2, 0, 1] [0, 0] [] [] = .ok ([[0], [], []], [[0], [], []]) := by decide
  have first : firstMatch [97, 98] [2, 0, 1] [98] 0 0 3 = some 2 := by decide +kernel
  exact (staysInside_iff (by decide : 2 ≤ [97, 98].length) (by decide) (by decide) hlcp built [98]
    (by decide) (by decide)).mpr (Or.inr ⟨2, 1, first, rfl, rfl⟩)

/-- The first probe for `a` in `ab` compares `b` with what is behind the pattern. If that
is a `b` too, `depth_bef` becomes two and the search finds nothing. -/
theorem val_overread : ExactLcp [97, 98] [2, 0, 1] [0, 0] ∧
    makeLcpLr [2, 0, 1] [0, 0] [] [] = .ok ([[0], [], []], [[0], [], []]) ∧
    lowerBound 12 (fun _ => none) [97, 98] [2, 0, 1] [[0], [], []] [[0], [], []] [97] =
      .error .outOfRange ∧
    lowerBoundStep (fun _ => some 98) [97, 98] [2, 0, 1] [[0], [], []] [[0], [], []] [97]
      ⟨0, 3, 0, false⟩ = .ok (.inr ⟨1, 1, 2, false⟩) ∧
    lowerBound 12 (fun _ => some 98) [97, 98] [2, 0, 1] [[0], [], []] [[0], [], []] [97] =
      .ok (3, 3) ∧
    ¬ StaysInside 12 [97, 98] [2, 0, 1] [[0], [], []] [[0], [], []] [97] := by
  have stopped : lowerBound 12 (fun _ => none) [97, 98] [2, 0, 1] [[0], [], []] [[0], [], []] [97] =
      .error .outOfRange := by decide
  refine ⟨by decide, by decide, stopped, by decide, by decide, fun inside => ?_⟩
  obtain ⟨range, run⟩ := inside.returns
  rw [stopped] at run
  exact nomatch run

end SuffixArray.Search
