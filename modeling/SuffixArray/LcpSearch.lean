import SuffixArray.LcpTables
import SuffixArray.PlainSearch

/-!
# The search with tables agrees with the plain one

The window of `lower_bound` always contains every match, and all its suffixes share
the first `depth_bef` characters of the pattern. A probe that gets further jumps to
the interval of the deeper prefix; one that does not halves the window as a plain
bisection would. The flag `smaller` is stale after a probe of a suffix that ends at
`depth_bef`. Such a suffix is the smallest of the window, so the window has no
other rank and the flag makes no difference.
-/

namespace SuffixArray.Search

open Checked SuffixOrder
open InducedSorting (idxBits)
open Lcp (ExactLcp)
open LcpTables (ExactTables LeftEnd RightEnd ExactRow makeLcpLr)

/-- The windows that `lower_bound` comes to. -/
inductive Visited (past : Past) (data : List UInt8) (SA : List Nat) (lcpL lcpR : List (List Nat))
    (val : List UInt8) : Window → Prop where
  | start : Visited past data SA lcpL lcpR val
      { fir := 0, count := SA.length, depthBef := 0, smaller := false }
  | step {w w' : Window} (before : Visited past data SA lcpL lcpR val w) (more : w.count ≠ 0)
      (run : lowerBoundStep past data SA lcpL lcpR val w = .ok (.inr w')) :
      Visited past data SA lcpL lcpR val w'

/-- What is read behind a match at `p` differs from the data, if they go on there. -/
def StopsBehind (data val : List UInt8) (past : Past) (p : Nat) : Prop :=
  Occurs data val p → ∀ c, data[p + val.length]? = some c →
    ∃ b, past (p + val.length) = some b ∧ b ≠ c

variable {data val : List UInt8} {SA lcp : List Nat} {lcpL lcpR : List (List Nat)} {past : Past}

/-- The comparison of the pattern from `q` on with the data from `p` on stops in time. -/
def StopsFrom (data val : List UInt8) (past : Past) (p q : Nat) : Prop :=
  val.drop q <+: data.drop p → ∀ c, data[p + (val.length - q)]? = some c →
    ∃ b, past (p + (val.length - q)) = some b ∧ b ≠ c

/-- An element behind the pattern that the search reads, if it reads one, differs from the
character it is compared with. -/
def UnequalPast (past : Past) (data : List UInt8) (SA : List Nat) (lcpL lcpR : List (List Nat))
    (val : List UInt8) : Prop :=
  ∀ w start, Visited past data SA lcpL lcpR val w → w.count ≠ 0 →
    SA[w.fir + w.count / 2]? = some start →
    StopsFrom data val past (start + w.depthBef) w.depthBef

theorem StopsFrom.tail {p q : Nat} (h : StopsFrom data val past p q) (hp : p < data.length)
    (hq : q < val.length) (same : data[p] = val[q]) :
    StopsFrom data val past (p + 1) (q + 1) := by
  have behind : p + 1 + (val.length - (q + 1)) = p + (val.length - q) := by omega
  rw [StopsFrom, behind]
  intro shared
  apply h
  rw [List.drop_eq_getElem_cons hq, List.drop_eq_getElem_cons hp]
  exact List.cons_prefix_cons.mpr ⟨same.symm, shared⟩

theorem readVal_eq {p q : Nat} (hq : q < val.length) : readVal val past p q = .ok val[q] := by
  rw [readVal, if_neg (Nat.ne_of_lt hq), load_of_lt hq]

/-- `std::equal` counts the common prefix. Where neither list has ended the flag says
which of them is smaller. -/
theorem equalVal_eq (rest p q depth : Nat) (smaller : Bool)
    (stops : StopsFrom data val past p q) (hp : p + rest = data.length) (hq : q ≤ val.length)
    (fits : depth + rest < 2 ^ idxBits) :
    ∃ flag, equalVal data val past rest p q depth smaller =
        .ok (depth + commonPrefix (data.drop p) (val.drop q), flag) ∧
      (commonPrefix (data.drop p) (val.drop q) = 0 → p < data.length → q < val.length →
        (flag = true ↔ data.drop p < val.drop q)) := by
  induction rest generalizing p q depth with
  | zero =>
      have hnil : data.drop p = [] := List.drop_eq_nil_of_le (by omega)
      refine ⟨smaller, ?_, fun _ hlt => by omega⟩
      rw [equalVal, hnil, pure_eq_ok]
      rfl
  | succ rest ih =>
      have hlt : p < data.length := by omega
      rw [equalVal, load_of_lt hlt, ok_bind, List.drop_eq_getElem_cons hlt]
      obtain hqlt | rfl := Nat.lt_or_eq_of_le hq
      · rw [readVal_eq hqlt, ok_bind, List.drop_eq_getElem_cons hqlt, commonPrefix_cons,
          List.cons_lt_cons_iff]
        obtain hless | same | hgreater := lt_trichotomy data[p] val[q]
        · rw [if_pos hless, if_neg (ne_of_lt hless)]
          exact ⟨true, rfl, fun _ _ _ => iff_of_true rfl (Or.inl hless)⟩
        · obtain ⟨flag, run, _⟩ := ih (p + 1) (q + 1) (depth + 1) (stops.tail hlt hqlt same)
            (by omega) (by omega) (by omega)
          rw [if_neg (same ▸ lt_irrefl _), if_neg (same ▸ lt_irrefl _), inc_of_lt (by omega),
            ok_bind, run, if_pos same]
          refine ⟨flag, ?_, fun h => absurd h (Nat.succ_ne_zero _)⟩
          rw [Nat.add_right_comm, Nat.add_assoc]
        · rw [if_neg (lt_asymm hgreater), if_pos hgreater, if_neg (ne_of_gt hgreater)]
          refine ⟨false, rfl, fun _ _ _ => iff_of_false (by decide) ?_⟩
          rintro (hless | ⟨same, _⟩)
          · exact lt_asymm hgreater hless
          · exact ne_of_gt hgreater same
      · rw [StopsFrom, List.drop_length, Nat.sub_self, Nat.add_zero] at stops
        obtain ⟨b, hpast, hne⟩ := stops List.nil_prefix _ (List.getElem?_eq_getElem hlt)
        rw [readVal, if_pos rfl, hpast, ok_bind, List.drop_length, commonPrefix_nil_right]
        split
        · exact ⟨true, rfl, fun _ _ h => absurd h (Nat.lt_irrefl _)⟩
        · next hge =>
            have hgreater : b < data[p] := lt_of_le_of_ne (not_lt.mp hge) hne
            rw [if_pos hgreater]
            exact ⟨false, rfl, fun _ _ h => absurd h (Nat.lt_irrefl _)⟩

theorem rangeL_eq (tables : ExactTables lcp lcpL lcpR) {i : Nat} (hpos : 1 ≤ i)
    (hi : i ≤ lcp.length) (d : Nat) :
    ∃ l, rangeL lcpL i (d + 1) = .ok l ∧ LeftEnd lcp d i l := by
  obtain ⟨row, hrow, inside, outside⟩ := tables.rowL i hpos hi
  rw [rangeL, load_eq_ok.mpr hrow, ok_bind, sub_of_le (Nat.le_add_left 1 d), ok_bind,
    Nat.add_sub_cancel]
  by_cases hd : d < row.length
  · obtain ⟨l, hl, hend⟩ := inside d hd
    exact ⟨l, (if_pos hd).trans (load_eq_ok.mpr hl), hend⟩
  · exact ⟨i, if_neg hd, outside d (Nat.le_of_not_lt hd)⟩

theorem rangeR_eq (tables : ExactTables lcp lcpL lcpR) (fits : lcp.length + 1 < 2 ^ idxBits)
    {i : Nat} (hpos : 1 ≤ i) (hi : i ≤ lcp.length) (d : Nat) :
    ∃ r, rangeR lcpR i (d + 1) = .ok (r + 1) ∧ RightEnd lcp d i r := by
  obtain ⟨row, hrow, inside, outside⟩ := tables.rowR i hpos hi
  rw [rangeR, load_eq_ok.mpr hrow, ok_bind, sub_of_le (Nat.le_add_left 1 d), ok_bind,
    Nat.add_sub_cancel]
  by_cases hd : d < row.length
  · obtain ⟨r, hr, hend⟩ := inside d hd
    refine ⟨r, ?_, hend⟩
    rw [if_pos hd, load_eq_ok.mpr hr, ok_bind, inc_of_lt]
    have := hend.1.2
    omega
  · refine ⟨i, ?_, outside d (Nat.le_of_not_lt hd)⟩
    rw [if_neg hd, inc_of_lt]
    omega

/-- The window of ranks that share a non-empty prefix with a probed suffix. -/
theorem jump_eq (fits : data.length + 1 < 2 ^ idxBits) (hsa : IsSuffixArray data SA)
    (hlcp : ExactLcp data SA lcp) (tables : ExactTables lcp lcpL lcpR) {i start depth : Nat}
    (hstart : SA[i]? = some start) (hdepth : depth ≠ 0) (hval : depth ≤ val.length)
    (shared : val.take depth <+: data.drop start) : ∃ l r,
    rangeL lcpL i depth = .ok l ∧ rangeR lcpR i depth = .ok r ∧ l < r ∧ r ≤ SA.length ∧
      ∀ (k : Nat) q, SA[k]? = some q → (l ≤ k ∧ k < r ↔ val.take depth <+: data.drop q) := by
  obtain ⟨d, rfl⟩ := Nat.exists_eq_succ_of_ne_zero hdepth
  have length := hsa.length_eq
  have lcpLength := hlcp.1
  have hlen : (val.take (d + 1)).length = d + 1 := List.length_take_of_le hval
  have hi := (List.getElem?_eq_some_iff.mp hstart).1
  -- Rank 0 is the empty suffix and shares nothing.
  have hpos : 1 ≤ i := by
    by_contra hzero
    obtain rfl : i = 0 := by omega
    rw [Option.some.inj (hstart.symm.trans hsa.getElem?_zero), List.drop_length,
      List.prefix_nil] at shared
    rw [shared] at hlen
    exact absurd hlen (Nat.succ_ne_zero d).symm
  obtain ⟨l, hl, leftEnd⟩ := rangeL_eq tables hpos (by omega) d
  obtain ⟨r, hr, rightEnd⟩ := rangeR_eq tables (by omega) hpos (by omega) d
  have hli := leftEnd.1
  have hir := rightEnd.1
  refine ⟨l, r + 1, hl, hr, by omega, by omega, fun k q hq => ?_⟩
  rw [Nat.lt_succ_iff]
  exact LcpTables.interval_iff hsa hlcp hlen hstart shared leftEnd rightEnd hq

/-- The loop invariant. -/
structure Covers (data : List UInt8) (SA : List Nat) (val : List UInt8) (w : Window) : Prop where
  inside : w.fir + w.count ≤ SA.length
  depth_lt : w.depthBef < val.length
  shared : ∀ (k : Nat) p, w.fir ≤ k → k < w.fir + w.count → SA[k]? = some p →
    val.take w.depthBef <+: data.drop p
  all : ∀ (k : Nat) p, SA[k]? = some p → Occurs data val p → w.fir ≤ k ∧ k < w.fir + w.count

/-- The depth grows at a jump and the window shrinks otherwise. -/
def Window.measure (n : Nat) (w : Window) : Nat := (n - w.depthBef) * (n + 2) + w.count

/-- What an iteration returns: the answer, or a smaller window. -/
def StepResult (data : List UInt8) (SA : List Nat) (val : List UInt8) (w : Window) :
    (Nat × Nat) ⊕ Window → Prop
  | .inl range => MatchRange data SA val range
  | .inr w' => Covers data SA val w' ∧ w'.measure data.length < w.measure data.length

/-- A probe that matches further characters. -/
theorem jump_result (fits : data.length + 1 < 2 ^ idxBits) (hsa : IsSuffixArray data SA)
    (hlcp : ExactLcp data SA lcp) (tables : ExactTables lcp lcpL lcpR) {w : Window}
    {i start depth : Nat} (hstart : SA[i]? = some start) (deeper : w.depthBef < depth)
    (hval : depth ≤ val.length) (shared : val.take depth <+: data.drop start) (smaller : Bool) :
    ∃ res, (do
      let l ← rangeL lcpL i depth
      let r ← rangeR lcpR i depth
      if depth = val.length then
        return .inl (l, r)
      else
        let count ← sub r l
        return .inr { fir := l, count := count, depthBef := depth, smaller := smaller } :
        Run ((Nat × Nat) ⊕ Window)) = .ok res ∧ StepResult data SA val w res := by
  obtain ⟨l, r, hl, hr, hlr, hrle, interval⟩ :=
    jump_eq fits hsa hlcp tables hstart (Nat.ne_zero_of_lt deeper) hval shared
  rw [hl, ok_bind, hr, ok_bind]
  by_cases hend : depth = val.length
  · rw [if_pos hend]
    rw [hend, List.take_length] at interval
    exact ⟨_, rfl, Or.inr ⟨hlr, hrle⟩, interval⟩
  · rw [if_neg hend, sub_of_le hlr.le, ok_bind]
    have hle := shared.length_le
    rw [List.length_take_of_le hval, List.length_drop] at hle
    refine ⟨_, rfl, ⟨?_, Nat.lt_of_le_of_ne hval hend, fun k p hlk hkr hp => ?_,
      fun k p hp occurs => ?_⟩, ?_⟩
    · simp only
      omega
    · simp only at hlk hkr
      exact (interval k p hp).mp ⟨hlk, by omega⟩
    · have := (interval k p hp).mpr ((List.take_prefix _ _).trans occurs)
      simp only
      omega
    · have hlength := hsa.length_eq
      have grow : (data.length - depth + 1) * (data.length + 2) ≤
          (data.length - w.depthBef) * (data.length + 2) := Nat.mul_le_mul_right _ (by omega)
      rw [Nat.succ_mul] at grow
      simp only [Window.measure]
      omega

section Probe

variable {w : Window} {start : Nat}

theorem Covers.exists_probe (h : Covers data SA val w) (hcount : w.count ≠ 0) :
    ∃ start, SA[w.fir + w.count / 2]? = some start := by
  have := h.inside
  exact ⟨_, List.getElem?_eq_getElem (show w.fir + w.count / 2 < SA.length by omega)⟩

/-- A probed suffix that ends at the depth reached is alone in the window. -/
theorem Covers.single (h : Covers data SA val w) (hsa : IsSuffixArray data SA)
    (hcount : w.count ≠ 0) (hstart : SA[w.fir + w.count / 2]? = some start)
    (ended : data.length ≤ start + w.depthBef) : w.count = 1 := by
  have hinside := h.inside
  have hfir := List.getElem?_eq_getElem (show w.fir < SA.length by omega)
  have first := h.shared w.fir _ (Nat.le_refl _) (by omega) hfir
  have probed := h.shared _ _ (Nat.le_add_right _ _) (by omega) hstart
  have hlen := probed.length_le
  have htake := List.length_take_of_le h.depth_lt.le
  have whole : data.drop start <+: data.drop SA[w.fir] := by
    have same := List.IsPrefix.eq_of_length_le probed (by rw [htake, List.length_drop]; omega)
    exact same ▸ first
  have hle := hsa.getElem?_le hfir hstart (Nat.le_add_right _ _)
  by_contra hne
  have hlt := hsa.getElem?_lt hfir hstart (by omega)
  exact absurd hlt (not_lt.mpr (le_of_isPrefix whole))

/-- In front of a probed suffix smaller than the pattern there is no match. -/
theorem Covers.drop_front (h : Covers data SA val w) (hsa : IsSuffixArray data SA)
    (hcount : w.count ≠ 0) (hstart : SA[w.fir + w.count / 2]? = some start)
    (less : data.drop start < val) (smaller : Bool) :
    StepResult data SA val w (.inr ⟨w.fir + w.count / 2 + 1, w.count - (w.count / 2 + 1),
      w.depthBef, smaller⟩) := by
  have hinside := h.inside
  refine ⟨⟨?_, h.depth_lt, fun k p hlo hhi hp => ?_, fun k p hp occurs => ?_⟩, ?_⟩
  · simp only
    omega
  · simp only at hlo hhi
    exact h.shared k p (by omega) (by omega) hp
  · have hk := h.all k p hp occurs
    have : w.fir + w.count / 2 < k := by
      by_contra hle
      have := hsa.getElem?_le hp hstart (Nat.le_of_not_lt hle)
      exact absurd less (not_lt.mpr ((le_of_isPrefix occurs).trans this))
    simp only
    omega
  · simp only [Window.measure]
    omega

/-- From a probed suffix on that is greater than the pattern and no match, nothing matches. -/
theorem Covers.drop_back (h : Covers data SA val w) (hsa : IsSuffixArray data SA)
    (hcount : w.count ≠ 0) (hstart : SA[w.fir + w.count / 2]? = some start)
    (greater : ¬ data.drop start < val) (no : ¬ Occurs data val start) (smaller : Bool) :
    StepResult data SA val w (.inr ⟨w.fir, w.count / 2, w.depthBef, smaller⟩) := by
  have hinside := h.inside
  refine ⟨⟨?_, h.depth_lt, fun k p hlo hhi hp => ?_, fun k p hp occurs => ?_⟩, ?_⟩
  · simp only
    omega
  · simp only at hlo hhi
    exact h.shared k p hlo (by omega) hp
  · have hk := h.all k p hp occurs
    have : k < w.fir + w.count / 2 := by
      by_contra hge
      have := hsa.getElem?_le hstart hp (Nat.le_of_not_lt hge)
      exact no (prefix_of_le_of_le (not_lt.mp greater) this occurs)
    exact ⟨hk.1, this⟩
  · simp only [Window.measure]
    omega

/-- The probed suffix, split at the depth that the window shares. -/
theorem Covers.drop_eq (h : Covers data SA val w) (hcount : w.count ≠ 0)
    (hstart : SA[w.fir + w.count / 2]? = some start) :
    data.drop start = val.take w.depthBef ++ data.drop (start + w.depthBef) := by
  have shared := h.shared _ _ (Nat.le_add_right _ _) (by omega) hstart
  have split := List.prefix_iff_eq_append.mp shared
  rw [List.length_take_of_le h.depth_lt.le, List.drop_drop] at split
  exact split.symm

theorem Covers.occurs_iff (h : Covers data SA val w) (hcount : w.count ≠ 0)
    (hstart : SA[w.fir + w.count / 2]? = some start) :
    Occurs data val start ↔ val.drop w.depthBef <+: data.drop (start + w.depthBef) := by
  rw [← List.prefix_append_right_inj (val.take w.depthBef), List.take_append_drop,
    ← h.drop_eq hcount hstart, Occurs]

theorem Covers.stopsFrom_iff (h : Covers data SA val w) (hcount : w.count ≠ 0)
    (hstart : SA[w.fir + w.count / 2]? = some start) :
    StopsFrom data val past (start + w.depthBef) w.depthBef ↔ StopsBehind data val past start := by
  have hdepth := h.depth_lt
  have behind : start + w.depthBef + (val.length - w.depthBef) = start + val.length := by omega
  rw [StopsFrom, StopsBehind, behind, h.occurs_iff hcount hstart]

/-- The probe shares with the pattern what it matched and what the window shares. -/
theorem Covers.deeper (h : Covers data SA val w) (hcount : w.count ≠ 0)
    (hstart : SA[w.fir + w.count / 2]? = some start) {c : Nat}
    (hc : commonPrefix (data.drop (start + w.depthBef)) (val.drop w.depthBef) = c) :
    val.take (w.depthBef + c) <+: data.drop start := by
  rw [commonPrefix_comm] at hc
  rw [List.take_add, h.drop_eq hcount hstart]
  apply (List.prefix_append_right_inj _).mpr
  apply (take_prefix_iff _).mpr (Nat.le_of_eq hc.symm)
  rw [← hc]
  exact commonPrefix_le_length _ _

/-- Where the probe matches nothing more, there is no match. -/
theorem Covers.not_occurs (h : Covers data SA val w) (hcount : w.count ≠ 0)
    (hstart : SA[w.fir + w.count / 2]? = some start)
    (hzero : commonPrefix (data.drop (start + w.depthBef)) (val.drop w.depthBef) = 0) :
    ¬ Occurs data val start := by
  intro occurs
  have behind := (h.occurs_iff hcount hstart).mp occurs
  rw [← List.take_length (l := val.drop w.depthBef)] at behind
  have := (take_prefix_iff (Nat.le_refl _)).mp behind
  rw [commonPrefix_comm, hzero, List.length_drop] at this
  have := h.depth_lt
  omega

/-- A probed suffix that ends at the depth reached is smaller than the pattern. -/
theorem Covers.lt_of_ended (h : Covers data SA val w) (hcount : w.count ≠ 0)
    (hstart : SA[w.fir + w.count / 2]? = some start)
    (ended : data.length ≤ start + w.depthBef) : data.drop start < val := by
  apply lt_of_isPrefix
  · rw [h.drop_eq hcount hstart, List.drop_eq_nil_of_le ended, List.append_nil]
    exact List.take_prefix _ _
  · intro same
    have lengths := congrArg List.length same
    rw [List.length_drop] at lengths
    have := h.depth_lt
    omega

/-- Then halving the window empties it as well, without losing a match. -/
theorem Covers.drop_single (h : Covers data SA val w) (hsa : IsSuffixArray data SA)
    (hcount : w.count ≠ 0) (hstart : SA[w.fir + w.count / 2]? = some start)
    (ended : data.length ≤ start + w.depthBef) (smaller : Bool) :
    StepResult data SA val w (.inr ⟨w.fir, w.count / 2, w.depthBef, smaller⟩) := by
  have hone := h.single hsa hcount hstart ended
  have hinside := h.inside
  have behind := h.drop_front hsa hcount hstart (h.lt_of_ended hcount hstart ended) smaller
  refine ⟨⟨?_, h.depth_lt, fun k p hlo hhi => ?_, fun k p hp occurs => ?_⟩, ?_⟩
  · simp only
    omega
  · simp only at hlo hhi
    omega
  · have := behind.1.all k p hp occurs
    simp only at this
    omega
  · simp only [Window.measure]
    omega

/-- A probe that matches nothing more, whichever way its flag sends it. -/
theorem Covers.halve (h : Covers data SA val w) (hsa : IsSuffixArray data SA)
    (fits : SA.length < 2 ^ idxBits) (hcount : w.count ≠ 0)
    (hstart : SA[w.fir + w.count / 2]? = some start) {flag : Bool}
    (front : flag = true → data.drop start < val)
    (back : flag = false → StepResult data SA val w (.inr ⟨w.fir, w.count / 2, w.depthBef, flag⟩)) :
    ∃ res, (if flag then do
      let fir ← inc idxBits (w.fir + w.count / 2)
      let count ← sub w.count (w.count / 2 + 1)
      return .inr { fir := fir, count := count, depthBef := w.depthBef, smaller := flag }
      else return .inr { fir := w.fir, count := w.count / 2, depthBef := w.depthBef,
                         smaller := flag } :
        Run ((Nat × Nat) ⊕ Window)) = .ok res ∧ StepResult data SA val w res := by
  have hinside := h.inside
  cases flag with
  | true =>
      rw [if_pos rfl, inc_of_lt (by omega), ok_bind, sub_of_le (by omega), ok_bind]
      exact ⟨_, rfl, h.drop_front hsa hcount hstart (front rfl) true⟩
  | false => exact ⟨_, rfl, back rfl⟩

theorem Covers.probe_le (h : Covers data SA val w) (hsa : IsSuffixArray data SA)
    (hcount : w.count ≠ 0) (hstart : SA[w.fir + w.count / 2]? = some start) :
    start + w.depthBef ≤ data.length := by
  have hshared := (h.shared _ _ (Nat.le_add_right _ _) (by omega) hstart).length_le
  rw [List.length_take_of_le h.depth_lt.le, List.length_drop] at hshared
  obtain ⟨hi, rfl⟩ := List.getElem?_eq_some_iff.mp hstart
  have := hsa.getElem_le hi
  omega

variable {c : Nat}

theorem Covers.matched_le (h : Covers data SA val w) (hsa : IsSuffixArray data SA)
    (hcount : w.count ≠ 0) (hstart : SA[w.fir + w.count / 2]? = some start)
    (hc : commonPrefix (data.drop (start + w.depthBef)) (val.drop w.depthBef) = c) :
    w.depthBef + c ≤ val.length ∧ start + w.depthBef + c ≤ data.length := by
  have hprobe := h.probe_le hsa hcount hstart
  have hdepth := h.depth_lt
  have hdata := commonPrefix_le_length (data.drop (start + w.depthBef)) (val.drop w.depthBef)
  have hval := commonPrefix_le_length (val.drop w.depthBef) (data.drop (start + w.depthBef))
  rw [hc, List.length_drop] at hdata
  rw [commonPrefix_comm, hc, List.length_drop] at hval
  omega

/-- An iteration behind its comparison: `c` characters more were matched, and if none
was the flag says on which side the probe lies. -/
theorem Covers.probe (h : Covers data SA val w) (fits : data.length + 1 < 2 ^ idxBits)
    (hsa : IsSuffixArray data SA) (hcount : w.count ≠ 0)
    (hstart : SA[w.fir + w.count / 2]? = some start)
    (hc : commonPrefix (data.drop (start + w.depthBef)) (val.drop w.depthBef) = c)
    (stops : StopsBehind data val past start) : ∃ flag,
    lowerBoundStep past data SA lcpL lcpR val w = (if c ≠ 0 then do
        let l ← rangeL lcpL (w.fir + w.count / 2) (w.depthBef + c)
        let r ← rangeR lcpR (w.fir + w.count / 2) (w.depthBef + c)
        if w.depthBef + c = val.length then
          return .inl (l, r)
        else
          let count ← sub r l
          return .inr { fir := l, count := count, depthBef := w.depthBef + c, smaller := flag }
      else if flag then do
        let fir ← inc idxBits (w.fir + w.count / 2)
        let count ← sub w.count (w.count / 2 + 1)
        return .inr { fir := fir, count := count, depthBef := w.depthBef, smaller := flag }
      else
        return .inr { fir := w.fir, count := w.count / 2, depthBef := w.depthBef,
                      smaller := flag }) ∧
      (c = 0 → start + w.depthBef < data.length → (flag = true ↔ data.drop start < val)) := by
  have length := hsa.length_eq
  have hinside := h.inside
  have hdepth := h.depth_lt
  have hprobe := h.probe_le hsa hcount hstart
  have hmatched := h.matched_le hsa hcount hstart hc
  obtain ⟨flag, compared, hflag⟩ := equalVal_eq (data.length - (start + w.depthBef))
    (start + w.depthBef) w.depthBef 0 w.smaller ((h.stopsFrom_iff hcount hstart).mpr stops)
    (by omega) hdepth.le (by omega)
  rw [Nat.zero_add, hc] at compared
  refine ⟨flag, ?_, fun hzero hlt => ?_⟩
  · rw [lowerBoundStep, add_of_lt (by omega), ok_bind, load_eq_ok.mpr hstart, ok_bind,
      sub_of_le hprobe, ok_bind, compared, ok_bind]
    by_cases hzero : c = 0
    · rw [if_neg (not_not.mpr hzero), if_neg (not_not.mpr hzero)]
    · rw [if_pos hzero, if_pos hzero, add_of_lt (by omega), ok_bind]
  · have decides := hflag (hc.trans hzero) hlt hdepth
    rwa [← append_lt_append_iff (val.take w.depthBef), ← h.drop_eq hcount hstart,
      List.take_append_drop] at decides

end Probe

/-- One iteration keeps the invariant and decreases the measure, or answers. -/
theorem lowerBoundStep_eq (fits : data.length + 1 < 2 ^ idxBits) (hsa : IsSuffixArray data SA)
    (hlcp : ExactLcp data SA lcp) (tables : ExactTables lcp lcpL lcpR) {w : Window}
    (h : Covers data SA val w) (hcount : w.count ≠ 0) {start : Nat}
    (hstart : SA[w.fir + w.count / 2]? = some start) (stops : StopsBehind data val past start) :
    ∃ res, lowerBoundStep past data SA lcpL lcpR val w = .ok res ∧
      StepResult data SA val w res := by
  have length := hsa.length_eq
  obtain ⟨c, hc⟩ : ∃ c, commonPrefix (data.drop (start + w.depthBef)) (val.drop w.depthBef) = c :=
    ⟨_, rfl⟩
  obtain ⟨flag, probed, decides⟩ := h.probe fits hsa hcount hstart hc stops
  rw [probed]
  by_cases hzero : c = 0
  · rw [if_neg (not_not.mpr hzero)]
    by_cases hend : data.length ≤ start + w.depthBef
    · -- The flag is stale, but either way nothing is left of the window.
      exact h.halve hsa (by omega) hcount hstart (fun _ => h.lt_of_ended hcount hstart hend)
        (fun _ => h.drop_single hsa hcount hstart hend flag)
    · have decides := decides hzero (Nat.lt_of_not_le hend)
      exact h.halve hsa (by omega) hcount hstart decides.mp (fun hfalse =>
        h.drop_back hsa hcount hstart (fun hlt => Bool.eq_false_iff.mp hfalse (decides.mpr hlt))
          (h.not_occurs hcount hstart (hc.trans hzero)) flag)
  · rw [if_pos hzero]
    exact jump_result fits hsa hlcp tables hstart (by omega) (h.matched_le hsa hcount hstart hc).1
      (h.deeper hcount hstart hc) flag

theorem lowerBoundStep_result (fits : data.length + 1 < 2 ^ idxBits) (hsa : IsSuffixArray data SA)
    (hlcp : ExactLcp data SA lcp) (tables : ExactTables lcp lcpL lcpR) {w : Window}
    (h : Covers data SA val w) (hcount : w.count ≠ 0) {start : Nat}
    (hstart : SA[w.fir + w.count / 2]? = some start) (stops : StopsBehind data val past start)
    {res : (Nat × Nat) ⊕ Window} (run : lowerBoundStep past data SA lcpL lcpR val w = .ok res) :
    StepResult data SA val w res := by
  obtain ⟨res', run', hres⟩ := lowerBoundStep_eq fits hsa hlcp tables h hcount hstart stops
  exact Except.ok.inj (run'.symm.trans run) ▸ hres

/-- Without a window there is no match. -/
theorem Covers.absent {w : Window} (h : Covers data SA val w) (hzero : w.count = 0) :
    ∀ (k : Nat) p, SA[k]? = some p → ¬ Occurs data val p := by
  intro k p hp occurs
  have := h.all k p hp occurs
  omega

/-- The whole loop, from any covering window. What `inv` says of a window has to be
kept by an iteration, and has to keep the comparison from running on. -/
theorem lowerBoundLoop_eq (fits : data.length + 1 < 2 ^ idxBits) (hsa : IsSuffixArray data SA)
    (hlcp : ExactLcp data SA lcp) (tables : ExactTables lcp lcpL lcpR) (inv : Window → Prop)
    (stops : ∀ w start, inv w → Covers data SA val w → w.count ≠ 0 →
      SA[w.fir + w.count / 2]? = some start → StopsBehind data val past start)
    (keep : ∀ w w', inv w → Covers data SA val w → w.count ≠ 0 →
      lowerBoundStep past data SA lcpL lcpR val w = .ok (.inr w') → inv w')
    (fuel : Nat) {w : Window} (hw : inv w) (h : Covers data SA val w)
    (enough : w.measure data.length ≤ fuel) :
    ∃ range, lowerBoundLoop past data SA lcpL lcpR val fuel w = .ok range ∧
      MatchRange data SA val range := by
  induction fuel generalizing w with
  | zero =>
      have hzero : w.count = 0 := by
        simp only [Window.measure] at enough
        omega
      rw [lowerBoundLoop, if_pos hzero]
      exact ⟨_, rfl, matchRange_absent (h.absent hzero)⟩
  | succ fuel ih =>
      rw [lowerBoundLoop]
      by_cases hzero : w.count = 0
      · rw [if_pos hzero]
        exact ⟨_, rfl, matchRange_absent (h.absent hzero)⟩
      · obtain ⟨start, hstart⟩ := h.exists_probe hzero
        obtain ⟨res, run, hres⟩ := lowerBoundStep_eq fits hsa hlcp tables h hzero hstart
          (stops w start hw h hzero hstart)
        rw [if_neg hzero, run, ok_bind]
        cases res with
        | inl range => exact ⟨range, rfl, hres⟩
        | inr w' => exact ih (keep w w' hw h hzero run) hres.1 (by have := hres.2; omega)

/-- Before the first iteration. -/
theorem Covers.start (SA : List Nat) (nonempty : val ≠ []) :
    Covers data SA val { fir := 0, count := SA.length, depthBef := 0, smaller := false } where
  inside := Nat.le_of_eq (Nat.zero_add _)
  depth_lt := List.length_pos_of_ne_nil nonempty
  shared _ _ _ _ _ := List.nil_prefix
  all k _ hp _ :=
    ⟨Nat.zero_le k, (Nat.zero_add SA.length).symm ▸ (List.getElem?_eq_some_iff.mp hp).1⟩

theorem measure_start (hsa : IsSuffixArray data SA) : Window.measure data.length
    { fir := 0, count := SA.length, depthBef := 0, smaller := false } ≤
      (data.length + 1) * (data.length + 2) := by
  have := hsa.length_eq
  rw [Nat.succ_mul]
  simp only [Window.measure, Nat.sub_zero]
  omega

theorem exactTables_of_built (fits : data.length + 1 < 2 ^ idxBits) (two : 2 ≤ data.length)
    (hsa : IsSuffixArray data SA) (hlcp : ExactLcp data SA lcp)
    (built : makeLcpLr SA lcp [] [] = .ok (lcpL, lcpR)) : ExactTables lcp lcpL lcpR := by
  have length := hsa.length_eq
  have lcpLength := hlcp.1
  obtain ⟨lcpL', lcpR', built', tables⟩ : ∃ lcpL lcpR,
      makeLcpLr SA lcp [] [] = .ok (lcpL, lcpR) ∧ ExactTables lcp lcpL lcpR := by
    apply LcpTables.makeLcpLr_eq <;> omega
  obtain ⟨rfl, rfl⟩ := Prod.mk.inj (Except.ok.inj (built'.symm.trans built))
  exact tables

/-- With exact tables `lower_bound` returns what the plain search returns. -/
theorem lowerBound_eq_plain (two : 2 ≤ data.length) (fits : data.length < 2 ^ 32 - 1)
    (hsa : IsSuffixArray data SA) (hlcp : ExactLcp data SA lcp)
    (built : makeLcpLr SA lcp [] [] = .ok (lcpL, lcpR)) (val : List UInt8) (nonempty : val ≠ [])
    (unequal : UnequalPast past data SA lcpL lcpR val) : ∃ range,
    (∀ fuel, (data.length + 1) * (data.length + 2) ≤ fuel →
      lowerBound fuel past data SA lcpL lcpR val = .ok range) ∧
    ∀ fuel past, findAllInfix fuel past (val.map charOfAlph) data SA [] [] = .ok range := by
  have small : data.length + 1 < 2 ^ idxBits := by
    simp only [idxBits]
    omega
  have tables := exactTables_of_built small two hsa hlcp built
  obtain ⟨range, run, hrange⟩ := findAllInfix_plain_eq small hsa (val.map charOfAlph)
  rw [map_charOfAlph] at hrange
  refine ⟨range, fun fuel enough => ?_, run⟩
  have stops (w : Window) (start : Nat) (visited : Visited past data SA lcpL lcpR val w)
      (covers : Covers data SA val w) (hcount : w.count ≠ 0)
      (hstart : SA[w.fir + w.count / 2]? = some start) : StopsBehind data val past start :=
    (covers.stopsFrom_iff hcount hstart).mp (unequal w start visited hcount hstart)
  obtain ⟨other, loop, hother⟩ := lowerBoundLoop_eq small hsa hlcp tables
    (Visited past data SA lcpL lcpR val) stops
    (fun _ _ visited _ hcount run => .step visited hcount run) fuel .start
    (Covers.start SA nonempty) ((measure_start hsa).trans enough)
  rw [lowerBound, loop, hother.unique hrange]

/-- Only the element that is compared with the `b` need be readable. -/
theorem lowerBound_eq_plain_ab : ∃ range,
    (∀ fuel, 12 ≤ fuel → lowerBound fuel (fun p => if p = 1 then some 0 else none) [97, 98]
      [2, 0, 1] [[0], [], []] [[0], [], []] [97] = .ok range) ∧
    ∀ fuel past, findAllInfix fuel past [97] [97, 98] [2, 0, 1] [] [] = .ok range := by
  have hlcp : ExactLcp [97, 98] [2, 0, 1] [0, 0] := by decide
  have unequal : UnequalPast (fun p => if p = 1 then some 0 else none) [97, 98] [2, 0, 1]
      [[0], [], []] [[0], [], []] [97] := by
    intro w start visited
    -- The first probe answers.
    have only : w = ⟨0, 3, 0, false⟩ := by
      induction visited with
      | start => rfl
      | step before _ run ih =>
          obtain rfl := ih
          cases run
    subst only
    rintro - hstart - c hc
    obtain rfl := Option.some.inj hstart
    obtain rfl := Option.some.inj hc
    exact ⟨0, rfl, by decide⟩
  exact lowerBound_eq_plain (by decide : 2 ≤ [97, 98].length) (by decide) (by decide) hlcp
    (by decide) [97] (by decide) unequal

end SuffixArray.Search
