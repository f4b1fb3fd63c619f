import SuffixArray.Lcp

/-!
# The interval tables of `NaiveLCP_LR`

Row `i` of `lcp_l` and `lcp_r` holds, for each depth below the common prefix with the
neighbouring rank, how far to the left and right that many characters and one more
are shared. Rows are filled with the neighbour first and then overwritten from
their start while the running minimum lasts. Depths outside a row stand for rank `i`
itself, and the last rank has no row on the right.
-/

namespace SuffixArray.LcpTables

open Checked SuffixOrder
open InducedSorting (idxBits)
open Lcp (ExactLcp)

section Model

variable {α : Type}

/-- `v.resize(k, x)`. -/
def resize (v : List α) (k : Nat) (x : α) : List α := v.take k ++ List.replicate (k - v.length) x

/-- `std::fill(v.begin(), v.begin() + k, x)`. -/
def fill (v : List α) (k : Nat) (x : α) : Run (List α) :=
  if k ≤ v.length then .ok (List.replicate k x ++ v.drop k) else .error .outOfRange

/-- `make_lcp_lr_max`. -/
def makeLcpLrMax (i : Nat) (tables : List (List Nat) × List (List Nat)) (lcpValL lcpValR : Nat) :
    Run (List (List Nat) × List (List Nat)) := do
  let rowL ← load tables.1 i
  let lcpL ← store tables.1 i (resize rowL lcpValL (← sub i 1))
  let rowR ← load tables.2 i
  let lcpR ← store tables.2 i (resize rowR lcpValR (← inc idxBits i))
  return (lcpL, lcpR)

/-- `if(cur < min) min = cur`. -/
def lower (cur min : Nat) : Nat := if cur < min then cur else min

/-- The loop of `make_lcp_r` on the row, `rest` entries of `lcp` before its end.
`cur_lcp_val_r` is clamped after its last use and the clamp left out. -/
def makeLcpRFrom (lcp : List Nat) : (rest j min : Nat) → List Nat → Run (List Nat)
  | 0, _, _, row => return row
  | rest + 1, j, min, row => do
    let cur ← load lcp j
    if cur ≠ 0 then
      let next ← inc idxBits j
      let row ← fill row (lower cur min) next
      makeLcpRFrom lcp rest next (lower cur min) row
    else
      return row

def makeLcpR (i : Nat) (lcpR : List (List Nat)) (lcpValR : Nat) (lcp : List Nat) :
    Run (List (List Nat)) := do
  let row ← load lcpR i
  let j ← inc idxBits i
  let row ← makeLcpRFrom lcp (lcp.length - j) j lcpValR row
  store lcpR i row

/-- The loop of `make_lcp_l` on the row. The counter of the source is one less and
passes zero; the test made right after ends the loop. -/
def makeLcpLFrom (lcp : List Nat) : (j min : Nat) → List Nat → Run (List Nat)
  | 0, _, row => return row
  | j + 1, min, row => do
    let cur ← load lcp j
    if cur ≠ 0 then
      let row ← fill row (lower cur min) j
      makeLcpLFrom lcp j (lower cur min) row
    else
      return row

def makeLcpL (i : Nat) (lcpL : List (List Nat)) (lcpValL : Nat) (lcp : List Nat) :
    Run (List (List Nat)) := do
  let row ← load lcpL i
  let row ← makeLcpLFrom lcp i lcpValL row
  store lcpL i row

/-- One iteration of `make_lcp_lr`, on both tables. -/
def makeLcpLrStep (lcp : List Nat) (i : Nat) (tables : List (List Nat) × List (List Nat)) :
    Run (List (List Nat) × List (List Nat)) := do
  let lcpValR ← load lcp i
  let lcpValL ← load lcp (← sub i 1)
  let tables ← makeLcpLrMax i tables lcpValL lcpValR
  let lcpR ← makeLcpR i tables.2 lcpValR lcp
  let lcpL ← makeLcpL i tables.1 lcpValL lcp
  return (lcpL, lcpR)

/-- Rank 0 has no common prefix with any other. -/
def pushRow (table : List (List Nat)) : Run (List (List Nat)) := do
  let row ← load table 0
  store table 0 (row ++ [0])

/-- `make_lcp_lr`, on tables of any content. -/
def makeLcpLr (SA lcp : List Nat) (lcpL lcpR : List (List Nat)) :
    Run (List (List Nat) × List (List Nat)) := do
  let lcpL ← pushRow (resize lcpL SA.length [])
  let lcpR ← pushRow (resize lcpR SA.length [])
  let stop ← sub SA.length 1
  let tables ← forUp idxBits 1 stop (makeLcpLrStep lcp) (lcpL, lcpR)
  let i := max 1 stop
  let lcpValL ← load lcp (i - 1)
  let row ← load tables.1 i
  let lcpL ← store tables.1 i (resize row lcpValL i)
  let lcpL ← makeLcpL i lcpL lcpValL lcp
  return (lcpL, tables.2)

end Model

/-- `l` is the last rank on the left of `i` before an entry of at most `d`. -/
def LeftEnd (lcp : List Nat) (d i l : Nat) : Prop :=
  l ≤ i ∧ (∀ k v : Nat, l ≤ k → k < i → lcp[k]? = some v → d < v) ∧
    ∀ v : Nat, 0 < l → lcp[l - 1]? = some v → v ≤ d

/-- `r` is the first rank from `i` on with an entry of at most `d`, or the last. -/
def RightEnd (lcp : List Nat) (d i r : Nat) : Prop :=
  (i ≤ r ∧ r ≤ lcp.length) ∧ (∀ k v : Nat, i ≤ k → k < r → lcp[k]? = some v → d < v) ∧
    ∀ v : Nat, lcp[r]? = some v → v ≤ d

/-- A row together with the depths it leaves out. -/
def ExactRow (stop : (d r : Nat) → Prop) (i : Nat) (row : List Nat) : Prop :=
  (∀ d, d < row.length → ∃ r : Nat, row[d]? = some r ∧ stop d r) ∧
    ∀ d, row.length ≤ d → stop d i

theorem lower_spec (cur min : Nat) : (lower cur min ≤ min ∧ lower cur min ≤ cur) ∧
    (lower cur min = min ∨ lower cur min = cur) := by
  rw [lower]
  split <;> omega

theorem length_fill {row row' : List Nat} {k x : Nat} (h : fill row k x = .ok row') :
    row'.length = row.length ∧ ∀ d, row'[d]? = if d < k then some x else row[d]? := by
  rw [fill] at h
  split at h
  · next hle =>
      obtain rfl := Except.ok.inj h
      refine ⟨by simp; omega, fun d => ?_⟩
      split
      · next hlt =>
          rw [List.getElem?_append_left (by simpa using hlt), List.getElem?_replicate_of_lt hlt]
      · next hge =>
          rw [List.getElem?_append_right (by simpa using Nat.le_of_not_lt hge), List.getElem?_drop,
            List.length_replicate]
          congr 1
          omega
  · cases h

theorem fill_of_le {row : List Nat} {k : Nat} (h : k ≤ row.length) (x : Nat) :
    ∃ row', fill row k x = .ok row' := ⟨_, if_pos h⟩

/-- A row in the course of either loop: the depths below the running minimum have got
as far as `j`, the others have found their end. -/
structure Running (reach : Nat → Prop) (stop : (d r : Nat) → Prop) (j min : Nat)
    (row : List Nat) : Prop where
  room : min ≤ row.length
  growing : ∀ d, d < min → row[d]? = some j ∧ reach d
  done : ∀ d, min ≤ d → d < row.length → ∃ r : Nat, row[d]? = some r ∧ stop d r

section Running

variable {reach reach' : Nat → Prop} {stop : Nat → Nat → Prop} {j j' min m : Nat}
  {row row' : List Nat}

/-- Depths that get no further than `j` end there. -/
theorem Running.settle (h : Running reach stop j min row)
    (ended : ∀ d, m ≤ d → d < min → reach d → stop d j) :
    ∀ d, m ≤ d → d < row.length → ∃ r : Nat, row[d]? = some r ∧ stop d r := by
  intro d hd hlen
  by_cases hlt : d < min
  · obtain ⟨hrow, hreach⟩ := h.growing d hlt
    exact ⟨j, hrow, ended d hd hlt hreach⟩
  · exact h.done d (Nat.le_of_not_lt hlt) hlen

/-- One iteration: the depths below the new minimum move on. -/
theorem Running.advance (h : Running reach stop j min row) (hm : m ≤ min)
    (hfill : fill row m j' = .ok row') (further : ∀ d, d < m → reach d → reach' d)
    (ended : ∀ d, m ≤ d → d < min → reach d → stop d j) : Running reach' stop j' m row' := by
  obtain ⟨length, entry⟩ := length_fill hfill
  constructor
  · rw [length]
    exact hm.trans h.room
  · intro d hd
    rw [entry, if_pos hd]
    exact ⟨rfl, further d hd (h.growing d (Nat.lt_of_lt_of_le hd hm)).2⟩
  · intro d hd hlen
    rw [entry, if_neg (Nat.not_lt_of_le hd)]
    exact h.settle ended d hd (length ▸ hlen)

end Running

/-- The loop of `make_lcp_r`. -/
theorem makeLcpRFrom_eq {lcp : List Nat} {i : Nat} (fits : lcp.length < 2 ^ idxBits)
    (rest j min : Nat) (row : List Nat) (hj : i < j) (hrest : j + rest = lcp.length)
    (h : Running (fun d => ∀ k v : Nat, i ≤ k → k < j → lcp[k]? = some v → d < v)
      (fun d r => RightEnd lcp d i r) j min row) :
    ∃ row', makeLcpRFrom lcp rest j min row = .ok row' ∧ row'.length = row.length ∧
      ∀ d, d < row.length → ∃ r : Nat, row'[d]? = some r ∧ RightEnd lcp d i r := by
  induction rest generalizing j min row with
  | zero =>
      refine ⟨row, rfl, rfl, fun d => h.settle (fun d _ _ hall => ?_) d (Nat.zero_le d)⟩
      refine ⟨⟨hj.le, by omega⟩, hall, fun v hv => ?_⟩
      have := (List.getElem?_eq_some_iff.mp hv).1
      omega
  | succ rest ih =>
      have hlt : j < lcp.length := by omega
      have now := List.getElem?_eq_getElem hlt
      have ended : ∀ d, lcp[j] ≤ d →
          (∀ k v : Nat, i ≤ k → k < j → lcp[k]? = some v → d < v) → RightEnd lcp d i j :=
        fun d hd hall => ⟨⟨hj.le, hlt.le⟩, hall, fun v hv =>
          Option.some.inj (now.symm.trans hv) ▸ hd⟩
      rw [makeLcpRFrom, load_of_lt hlt, ok_bind]
      by_cases hzero : lcp[j] = 0
      · rw [if_neg (not_not.mpr hzero)]
        exact ⟨row, rfl, rfl, fun d => h.settle (fun d _ _ => ended d (by omega)) d (Nat.zero_le d)⟩
      · rw [if_pos hzero, inc_of_lt (by omega), ok_bind]
        obtain ⟨hmle, hmeq⟩ := lower_spec lcp[j] min
        generalize lower lcp[j] min = m at hmle hmeq ⊢
        obtain ⟨row', hfill⟩ := fill_of_le (hmle.1.trans h.room) (j + 1)
        have next : Running
            (fun d => ∀ k v : Nat, i ≤ k → k < j + 1 → lcp[k]? = some v → d < v)
            (fun d r => RightEnd lcp d i r) (j + 1) m row' := h.advance hmle.1 hfill
          (fun d hd hall k v hik hkj hv => by
            obtain rfl | hkj := Nat.eq_or_lt_of_le (Nat.le_of_lt_succ hkj)
            · obtain rfl := Option.some.inj (now.symm.trans hv)
              omega
            · exact hall k v hik hkj hv)
          (fun d hd hdm => ended d (by omega))
        have length := (length_fill hfill).1
        obtain ⟨row'', run, length', result⟩ := ih (j + 1) m row' (by omega) (by omega) next
        rw [hfill, ok_bind]
        exact ⟨row'', run, length'.trans length, fun d hd => result d (length.symm ▸ hd)⟩

/-- The loop of `make_lcp_l`, from its second iteration on. -/
theorem makeLcpLFrom_eq {lcp : List Nat} {i : Nat} (hi : i ≤ lcp.length) (j min : Nat)
    (row : List Nat) (hj : j < i)
    (h : Running (fun d => ∀ k v : Nat, j ≤ k → k < i → lcp[k]? = some v → d < v)
      (fun d l => LeftEnd lcp d i l) j min row) :
    ∃ row', makeLcpLFrom lcp j min row = .ok row' ∧ row'.length = row.length ∧
      ∀ d, d < row.length → ∃ l : Nat, row'[d]? = some l ∧ LeftEnd lcp d i l := by
  induction j generalizing min row with
  | zero =>
      refine ⟨row, rfl, rfl, fun d => h.settle (fun d _ _ hall => ?_) d (Nat.zero_le d)⟩
      exact ⟨Nat.zero_le i, hall, fun v hpos => absurd hpos (Nat.lt_irrefl 0)⟩
  | succ j ih =>
      have hlt : j < lcp.length := by omega
      have now := List.getElem?_eq_getElem hlt
      have ended : ∀ d, lcp[j] ≤ d →
          (∀ k v : Nat, j + 1 ≤ k → k < i → lcp[k]? = some v → d < v) →
            LeftEnd lcp d i (j + 1) :=
        fun d hd hall => ⟨hj.le, hall, fun v _ hv => Option.some.inj (now.symm.trans hv) ▸ hd⟩
      rw [makeLcpLFrom, load_of_lt hlt, ok_bind]
      by_cases hzero : lcp[j] = 0
      · rw [if_neg (not_not.mpr hzero)]
        exact ⟨row, rfl, rfl, fun d => h.settle (fun d _ _ => ended d (by omega)) d (Nat.zero_le d)⟩
      · rw [if_pos hzero]
        obtain ⟨hmle, hmeq⟩ := lower_spec lcp[j] min
        generalize lower lcp[j] min = m at hmle hmeq ⊢
        obtain ⟨row', hfill⟩ := fill_of_le (hmle.1.trans h.room) j
        have next : Running (fun d => ∀ k v : Nat, j ≤ k → k < i → lcp[k]? = some v → d < v)
            (fun d l => LeftEnd lcp d i l) j m row' := h.advance hmle.1 hfill
          (fun d hd hall k v hjk hki hv => by
            obtain rfl | hjk := Nat.eq_or_lt_of_le hjk
            · obtain rfl := Option.some.inj (now.symm.trans hv)
              omega
            · exact hall k v hjk hki hv)
          (fun d hd hdm => ended d (by omega))
        have length := (length_fill hfill).1
        obtain ⟨row'', run, length', result⟩ := ih m row' (by omega) next
        rw [hfill, ok_bind]
        exact ⟨row'', run, length'.trans length, fun d hd => result d (length.symm ▸ hd)⟩

/-- The rows of all ranks but 0. -/
structure ExactTables (lcp : List Nat) (lcpL lcpR : List (List Nat)) : Prop where
  lengthL : lcpL.length = lcp.length + 1
  lengthR : lcpR.length = lcp.length + 1
  rowL : ∀ i, 1 ≤ i → i ≤ lcp.length →
    ∃ row, lcpL[i]? = some row ∧ ExactRow (fun d l => LeftEnd lcp d i l) i row
  rowR : ∀ i, 1 ≤ i → i ≤ lcp.length →
    ∃ row, lcpR[i]? = some row ∧ ExactRow (fun d r => RightEnd lcp d i r) i row

section Rows

variable {lcp : List Nat}

theorem rightRow_eq (fits : lcp.length < 2 ^ idxBits) {i : Nat} (hi : i < lcp.length) :
    ∃ row, makeLcpRFrom lcp (lcp.length - (i + 1)) (i + 1) lcp[i]
      (List.replicate lcp[i] (i + 1)) = .ok row ∧
        ExactRow (fun d r => RightEnd lcp d i r) i row := by
  have now := List.getElem?_eq_getElem hi
  have start : Running (fun d => ∀ k v : Nat, i ≤ k → k < i + 1 → lcp[k]? = some v → d < v)
      (fun d r => RightEnd lcp d i r) (i + 1) lcp[i] (List.replicate lcp[i] (i + 1)) := by
    refine ⟨Nat.le_of_eq List.length_replicate.symm, fun d hd => ?_, fun d hd hlt => ?_⟩
    · refine ⟨List.getElem?_replicate_of_lt hd, fun k v hik hki hv => ?_⟩
      obtain rfl : k = i := by omega
      exact Option.some.inj (now.symm.trans hv) ▸ hd
    · rw [List.length_replicate] at hlt
      exact absurd hlt (Nat.not_lt_of_le hd)
  obtain ⟨row, run, length, h⟩ := makeLcpRFrom_eq fits (lcp.length - (i + 1)) (i + 1) lcp[i]
    (List.replicate lcp[i] (i + 1)) (Nat.lt_succ_self i) (by omega) start
  rw [List.length_replicate] at length h
  refine ⟨row, run, length ▸ h, fun d hd => ?_⟩
  refine ⟨⟨Nat.le_refl i, hi.le⟩, fun k v hik hki => absurd hki (Nat.not_lt_of_le hik), ?_⟩
  intro v hv
  rw [← Option.some.inj (now.symm.trans hv), ← length]
  exact hd

/-- The first iteration of `make_lcp_l` replaces whatever the row was filled with. -/
theorem leftRow_eq {i : Nat} (hpos : 0 < i) (hi : i ≤ lcp.length) {row : List Nat}
    (length : row.length = lcp.getD (i - 1) 0) :
    ∃ row', makeLcpLFrom lcp i (lcp.getD (i - 1) 0) row = .ok row' ∧
      ExactRow (fun d l => LeftEnd lcp d i l) i row' := by
  obtain ⟨j, rfl⟩ := Nat.exists_eq_add_of_le' hpos
  rw [Nat.add_sub_cancel] at length ⊢
  have hlt : j < lcp.length := by omega
  have now := List.getElem?_eq_getElem hlt
  rw [List.getD_eq_getElem _ _ hlt] at length ⊢
  have outside : ∀ d, lcp[j] ≤ d → LeftEnd lcp d (j + 1) (j + 1) := by
    intro d hd
    refine ⟨Nat.le_refl _, fun k v hik hki => absurd hki (Nat.not_lt_of_le hik), ?_⟩
    intro v _ hv
    exact Option.some.inj (now.symm.trans hv) ▸ hd
  rw [makeLcpLFrom, load_of_lt hlt, ok_bind]
  by_cases hzero : lcp[j] = 0
  · rw [if_neg (not_not.mpr hzero)]
    refine ⟨row, rfl, fun d hd => ?_, fun d hd => outside d (length ▸ hd)⟩
    omega
  · have hlower : lower lcp[j] lcp[j] = lcp[j] := if_neg (Nat.lt_irrefl _)
    obtain ⟨row', hfill⟩ := fill_of_le (Nat.le_of_eq length.symm) j
    obtain ⟨length', entry⟩ := length_fill hfill
    rw [if_pos hzero, hlower, hfill, ok_bind]
    have start : Running (fun d => ∀ k v : Nat, j ≤ k → k < j + 1 → lcp[k]? = some v → d < v)
        (fun d l => LeftEnd lcp d (j + 1) l) j lcp[j] row' := by
      refine ⟨by omega, fun d hd => ?_, fun d hd hlt => absurd hlt (by omega)⟩
      refine ⟨by rw [entry, if_pos hd], fun k v hjk hki hv => ?_⟩
      obtain rfl : k = j := by omega
      exact Option.some.inj (now.symm.trans hv) ▸ hd
    obtain ⟨row'', run, length'', h⟩ :=
      makeLcpLFrom_eq hi j lcp[j] row' (Nat.lt_succ_self j) start
    refine ⟨row'', run, length''.symm ▸ h, fun d hd => outside d ?_⟩
    omega

/-- Filled rows up to `i`, empty ones from there on. -/
structure RowsUpTo (lcp : List Nat) (i : Nat) (rowsL rowsR : Nat → List Nat) : Prop where
  left : ∀ j, 1 ≤ j → j < i → ExactRow (fun d l => LeftEnd lcp d j l) j (rowsL j)
  right : ∀ j, 1 ≤ j → j < i → ExactRow (fun d r => RightEnd lcp d j r) j (rowsR j)
  empty : ∀ j, i ≤ j → rowsL j = [] ∧ rowsR j = []

/-- The table with the given rows. -/
def table (n : Nat) (rows : Nat → List Nat) : List (List Nat) := (List.range (n + 1)).map rows

theorem load_rows {n i : Nat} (rows : Nat → List Nat) (h : i ≤ n) :
    load (table n rows) i = .ok (rows i) := InducedSorting.load_table rows (Nat.lt_succ_of_le h)

theorem store_rows {n i : Nat} (rows : Nat → List Nat) (h : i ≤ n) (row : List Nat) :
    store (table n rows) i row = .ok (table n (fun j => if j = i then row else rows j)) :=
  InducedSorting.store_table rows (Nat.lt_succ_of_le h) row

theorem resize_nil {α : Type} (k : Nat) (x : α) : resize [] k x = List.replicate k x := by
  rw [resize, List.take_nil, List.nil_append, List.length_nil, Nat.sub_zero]

/-- The second of two writes to a row stays. -/
theorem table_set_set (n i : Nat) (x y : List Nat) (rows : Nat → List Nat) :
    table n (fun j => if j = i then x else if j = i then y else rows j) =
      table n (fun j => if j = i then x else rows j) := by
  refine InducedSorting.table_congr (fun j _ => ?_)
  by_cases same : j = i
  · simp only [same, if_true]
  · simp only [same, if_false]

theorem makeLcpLrStep_eq (fits : lcp.length < 2 ^ idxBits) {i : Nat} (hpos : 1 ≤ i)
    (hi : i < lcp.length) {rowsL rowsR : Nat → List Nat} (h : RowsUpTo lcp i rowsL rowsR) :
    ∃ rowsL' rowsR', makeLcpLrStep lcp i (table lcp.length rowsL, table lcp.length rowsR) =
      .ok (table lcp.length rowsL', table lcp.length rowsR') ∧
      RowsUpTo lcp (i + 1) rowsL' rowsR' := by
  have hprev : i - 1 < lcp.length := by omega
  have length : (List.replicate lcp[i - 1] (i - 1)).length = lcp.getD (i - 1) 0 := by
    rw [List.length_replicate, List.getD_eq_getElem _ _ hprev]
  obtain ⟨rowR, runR, exactR⟩ := rightRow_eq fits hi
  obtain ⟨rowL, runL, exactL⟩ := leftRow_eq hpos hi.le length
  rw [List.getD_eq_getElem _ _ hprev] at runL
  refine ⟨fun j => if j = i then rowL else rowsL j, fun j => if j = i then rowR else rowsR j,
    ?_, ?_⟩
  · simp only [makeLcpLrStep, makeLcpLrMax, makeLcpR, makeLcpL, load_of_lt hi, load_of_lt hprev,
      sub_of_le hpos, inc_of_lt (show i + 1 < 2 ^ idxBits by omega), ok_bind, load_rows _ hi.le,
      store_rows _ hi.le, h.empty i (Nat.le_refl i), resize_nil, if_true, runR, runL, pure_eq_ok,
      table_set_set]
  · refine ⟨fun j hj hlt => ?_, fun j hj hlt => ?_, fun j hj => ?_⟩
    · by_cases same : j = i
      · subst same
        simpa only [if_true] using exactL
      · simpa only [same, if_false] using h.left j hj (by omega)
    · by_cases same : j = i
      · subst same
        simpa only [if_true] using exactR
      · simpa only [same, if_false] using h.right j hj (by omega)
    · have same : j ≠ i := by omega
      simpa only [same, if_false] using h.empty j (by omega)

theorem pushRow_eq (n : Nat) : pushRow (resize [] (n + 1) []) =
    .ok (table n (fun j => if j = 0 then [0] else [])) := by
  have start : resize ([] : List (List Nat)) (n + 1) [] = table n (fun _ => []) :=
    (resize_nil _ _).trans (InducedSorting.replicate_eq_table _ _)
  rw [start, pushRow, load_rows _ (Nat.zero_le n), ok_bind, store_rows _ (Nat.zero_le n)]
  rfl

/-- From empty tables and the array of neighbouring prefixes all rows become exact. -/
theorem makeLcpLr_eq {SA : List Nat} (pos : 0 < lcp.length) (fits : lcp.length < 2 ^ idxBits)
    (length : SA.length = lcp.length + 1) :
    ∃ lcpL lcpR, makeLcpLr SA lcp [] [] = .ok (lcpL, lcpR) ∧ ExactTables lcp lcpL lcpR := by
  let inv (i : Nat) (tables : List (List Nat) × List (List Nat)) : Prop := ∃ rowsL rowsR,
    tables = (table lcp.length rowsL, table lcp.length rowsR) ∧ RowsUpTo lcp i rowsL rowsR
  have init : inv 1 (table lcp.length (fun j => if j = 0 then [0] else []),
      table lcp.length (fun j => if j = 0 then [0] else [])) := by
    refine ⟨_, _, rfl, fun j hj hlt => absurd hlt (by omega), fun j hj hlt => absurd hlt (by omega),
      fun j hj => ?_⟩
    have : j ≠ 0 := by omega
    simp only [this, if_false, and_self]
  have step : ∀ i tables, 1 ≤ i → i < lcp.length → inv i tables → ∃ t,
      makeLcpLrStep lcp i tables = .ok t ∧ inv (i + 1) t := by
    rintro i _ hpos hi ⟨rowsL, rowsR, rfl, h⟩
    obtain ⟨rowsL', rowsR', run, h'⟩ := makeLcpLrStep_eq fits hpos hi h
    exact ⟨_, run, rowsL', rowsR', rfl, h'⟩
  have one : 1 ≤ lcp.length := pos
  obtain ⟨_, loop, rowsL, rowsR, rfl, h⟩ := forUp_ok inv one fits init step
  have hprev : lcp.length - 1 < lcp.length := by omega
  have hlength : (List.replicate lcp[lcp.length - 1] lcp.length).length =
      lcp.getD (lcp.length - 1) 0 := by
    rw [List.length_replicate, List.getD_eq_getElem _ _ hprev]
  obtain ⟨rowL, runL, exactL⟩ := leftRow_eq pos (Nat.le_refl _) hlength
  rw [List.getD_eq_getElem _ _ hprev] at runL
  have hlast : max 1 lcp.length = lcp.length := Nat.max_eq_right pos
  refine ⟨table lcp.length (fun j => if j = lcp.length then rowL else rowsL j),
    table lcp.length rowsR, ?_, ?_⟩
  · rw [makeLcpLr, length, pushRow_eq, ok_bind, ok_bind, sub_of_le (Nat.le_add_left 1 lcp.length),
      ok_bind, Nat.add_sub_cancel, loop, ok_bind]
    simp only [makeLcpL, hlast, load_of_lt hprev, load_rows _ (Nat.le_refl lcp.length),
      store_rows _ (Nat.le_refl lcp.length), h.empty _ (Nat.le_refl _), resize_nil, if_true, runL,
      ok_bind, pure_eq_ok, table_set_set]
  · refine ⟨by simp [table], by simp [table], fun i hpos hi => ?_, fun i hpos hi => ?_⟩
    · refine ⟨_, load_eq_ok.mp (load_rows _ hi), ?_⟩
      by_cases same : i = lcp.length
      · subst same
        simpa only [if_true] using exactL
      · simpa only [same, if_false] using h.left i hpos (by omega)
    · refine ⟨_, load_eq_ok.mp (load_rows _ hi), ?_⟩
      by_cases same : i = lcp.length
      · rw [same, (h.empty _ (Nat.le_refl _)).2]
        refine ⟨fun d hd => absurd hd (Nat.not_lt_zero d), fun d _ => ?_⟩
        refine ⟨⟨Nat.le_refl _, Nat.le_refl _⟩,
          fun k v hik hki => absurd hki (Nat.not_lt_of_le hik), fun v hv => ?_⟩
        exact absurd (List.getElem?_eq_some_iff.mp hv).1 (Nat.lt_irrefl _)
      · exact h.right i hpos (by omega)

end Rows

section Intervals

variable {data : List UInt8} {SA lcp : List Nat} {p : List UInt8} {d : Nat}

/-- Neighbours with a longer common prefix begin with the same lists of length `d + 1`. -/
theorem prefix_neighbour_iff (hlcp : ExactLcp data SA lcp) (hp : p.length = d + 1) {k a b v : Nat}
    (ha : SA[k]? = some a) (hb : SA[k + 1]? = some b) (hv : lcp[k]? = some v) (hd : d < v) :
    p <+: data.drop a ↔ p <+: data.drop b := by
  have exact := Option.some.inj (hv.symm.trans (hlcp.2 k a b ha hb))
  have hle := commonPrefix_le_length (data.drop a) (data.drop b)
  have shared : (data.drop a).take (d + 1) <+: data.drop b :=
    (take_prefix_iff (by omega)).mpr (by omega)
  have same : (data.drop a).take (d + 1) = (data.drop b).take (d + 1) := by
    have := List.prefix_iff_eq_take.mp shared
    rwa [List.length_take, Nat.min_eq_left (by omega)] at this
  rw [List.prefix_iff_eq_take, List.prefix_iff_eq_take, hp, same]

theorem lt_of_prefix_neighbours (hlcp : ExactLcp data SA lcp) (hp : p.length = d + 1)
    {k a b v : Nat} (ha : SA[k]? = some a) (hb : SA[k + 1]? = some b) (hv : lcp[k]? = some v)
    (first : p <+: data.drop a) (second : p <+: data.drop b) : d < v := by
  have exact := Option.some.inj (hv.symm.trans (hlcp.2 k a b ha hb))
  have hle := first.length_le
  have same := List.prefix_iff_eq_take.mp first
  rw [hp] at same hle
  have := (take_prefix_iff hle).mp (same ▸ second)
  omega

/-- What stands at a rank that is not the last one, and at the next. -/
theorem neighbours (hsa : IsSuffixArray data SA) (hlcp : ExactLcp data SA lcp) {k : Nat}
    (hk : k < data.length) :
    ∃ a b v, SA[k]? = some a ∧ SA[k + 1]? = some b ∧ lcp[k]? = some v := by
  have length := hsa.length_eq
  have lcpLength := hlcp.1
  exact ⟨_, _, _, List.getElem?_eq_getElem (by omega), List.getElem?_eq_getElem (by omega),
    List.getElem?_eq_getElem (by omega)⟩

variable {i start l r : Nat}

/-- Going right from `i`, every rank up to the end begins with `p`. -/
theorem prefix_rightwards (hsa : IsSuffixArray data SA) (hlcp : ExactLcp data SA lcp)
    (hp : p.length = d + 1) (hstart : SA[i]? = some start) (begins : p <+: data.drop start)
    (hr : RightEnd lcp d i r) {k q : Nat} (hik : i ≤ k) (hkr : k ≤ r) (hq : SA[k]? = some q) :
    p <+: data.drop q := by
  induction k, hik using Nat.le_induction generalizing q with
  | base => exact Option.some.inj (hstart.symm.trans hq) ▸ begins
  | succ k hik ih =>
      have hrle := hr.1.2
      obtain ⟨a, b, v, ha, hb, hv⟩ := neighbours hsa hlcp (show k < data.length by
        have := hlcp.1
        omega)
      obtain rfl := Option.some.inj (hb.symm.trans hq)
      have deep := hr.2.1 k v hik hkr hv
      exact (prefix_neighbour_iff hlcp hp ha hb hv deep).mp (ih (by omega) ha)

/-- Going left from `i`, every rank down to the end begins with `p`. -/
theorem prefix_leftwards (hsa : IsSuffixArray data SA) (hlcp : ExactLcp data SA lcp)
    (hp : p.length = d + 1) (hstart : SA[i]? = some start) (begins : p <+: data.drop start)
    (hl : LeftEnd lcp d i l) {k q : Nat} (hlk : l ≤ k) (hki : k ≤ i) (hq : SA[k]? = some q) :
    p <+: data.drop q := by
  induction hki using Nat.decreasingInduction generalizing q with
  | self => exact Option.some.inj (hstart.symm.trans hq) ▸ begins
  | of_succ k hki ih =>
      have hi := (List.getElem?_eq_some_iff.mp hstart).1
      obtain ⟨a, b, v, ha, hb, hv⟩ := neighbours hsa hlcp (show k < data.length by
        have := hsa.length_eq
        omega)
      obtain rfl := Option.some.inj (ha.symm.trans hq)
      have deep := hl.2.1 k v hlk hki hv
      exact (prefix_neighbour_iff hlcp hp ha hb hv deep).mpr (ih (by omega) hb)

/-- The ranks between two ends around `i` are those that share one character more
than `d` with it. -/
theorem interval_iff (hsa : IsSuffixArray data SA) (hlcp : ExactLcp data SA lcp)
    (hp : p.length = d + 1) (hstart : SA[i]? = some start) (begins : p <+: data.drop start)
    (hl : LeftEnd lcp d i l) (hr : RightEnd lcp d i r) {k q : Nat} (hq : SA[k]? = some q) :
    l ≤ k ∧ k ≤ r ↔ p <+: data.drop q := by
  have length := hsa.length_eq
  have lcpLength := hlcp.1
  have hi := (List.getElem?_eq_some_iff.mp hstart).1
  have hk := (List.getElem?_eq_some_iff.mp hq).1
  have hli := hl.1
  have hir := hr.1.1
  constructor
  · rintro ⟨hlk, hkr⟩
    cases Nat.le_total k i with
    | inl hki => exact prefix_leftwards hsa hlcp hp hstart begins hl hlk hki hq
    | inr hik => exact prefix_rightwards hsa hlcp hp hstart begins hr hik hkr hq
  · intro hmatch
    constructor
    · -- A match in front of the left end would force the end further left.
      by_contra hlt
      obtain ⟨m, rfl⟩ := Nat.exists_eq_add_of_le' (show 1 ≤ l by omega)
      obtain ⟨a, b, v, ha, hb, hv⟩ := neighbours hsa hlcp (show m < data.length by omega)
      have between := hsa.prefix_of_between hq ha hstart (by omega) (by omega) hmatch begins
      have atEnd := prefix_leftwards hsa hlcp hp hstart begins hl (Nat.le_refl _) hli hb
      have deep := lt_of_prefix_neighbours hlcp hp ha hb hv between atEnd
      exact absurd (hl.2.2 v (Nat.succ_pos m) hv) (Nat.not_le_of_lt deep)
    · by_contra hlt
      obtain ⟨a, b, v, ha, hb, hv⟩ := neighbours hsa hlcp (show r < data.length by omega)
      have between := hsa.prefix_of_between hstart hb hq (by omega) (by omega) begins hmatch
      have atEnd := prefix_rightwards hsa hlcp hp hstart begins hr hir (Nat.le_refl r) ha
      have deep := lt_of_prefix_neighbours hlcp hp ha hb hv atEnd between
      exact absurd (hr.2.2 v hv) (Nat.not_le_of_lt deep)

/-- The ranks that a finished table gives for rank `i` and depth `d`, the rank itself where its
row is too short. -/
def rowEnd (table : List (List Nat)) (i d : Nat) : Run Nat := do
  let row ← load table i
  if d < row.length then load row d else return i

theorem rowEnd_eq {stop : (d r : Nat) → Prop} {table : List (List Nat)} {row : List Nat}
    (hrow : table[i]? = some row) (exact : ExactRow stop i row) (d : Nat) :
    ∃ e, rowEnd table i d = .ok e ∧ stop d e := by
  rw [rowEnd, load_eq_ok.mpr hrow, ok_bind]
  by_cases hd : d < row.length
  · obtain ⟨e, he, hstop⟩ := exact.1 d hd
    exact ⟨e, (if_pos hd).trans (load_eq_ok.mpr he), hstop⟩
  · exact ⟨i, if_neg hd, exact.2 d (Nat.le_of_not_lt hd)⟩

/-- `NaiveLCP_LR` returns tables in which the ends for any rank and depth enclose exactly the
ranks that begin like it. -/
theorem makeLcpLr_exact (two : 2 ≤ data.length) (fits : data.length < 2 ^ 32 - 1)
    (hsa : IsSuffixArray data SA) (hlcp : ExactLcp data SA lcp) :
    ∃ lcpL lcpR, makeLcpLr SA lcp [] [] = .ok (lcpL, lcpR) ∧
      ∀ i start d : Nat, 1 ≤ i → SA[i]? = some start → d < (data.drop start).length →
        ∃ l r, rowEnd lcpL i d = .ok l ∧ rowEnd lcpR i d = .ok r ∧
          ∀ k : Nat, l ≤ k ∧ k ≤ r ↔
            ∃ q, SA[k]? = some q ∧ (data.drop start).take (d + 1) <+: data.drop q := by
  have length := hsa.length_eq
  have lcpLength := hlcp.1
  have small : lcp.length < 2 ^ idxBits := by
    simp only [idxBits]
    omega
  obtain ⟨lcpL, lcpR, built, tables⟩ := makeLcpLr_eq (by omega) small (by omega : SA.length = _)
  refine ⟨lcpL, lcpR, built, fun i start d hpos hstart hd => ?_⟩
  have hi := (List.getElem?_eq_some_iff.mp hstart).1
  obtain ⟨rowL, hrowL, exactL⟩ := tables.rowL i hpos (by omega)
  obtain ⟨rowR, hrowR, exactR⟩ := tables.rowR i hpos (by omega)
  obtain ⟨l, hl, leftEnd⟩ := rowEnd_eq hrowL exactL d
  obtain ⟨r, hr, rightEnd⟩ := rowEnd_eq hrowR exactR d
  refine ⟨l, r, hl, hr, fun k => ?_⟩
  have taken : ((data.drop start).take (d + 1)).length = d + 1 := List.length_take_of_le hd
  have enclosed {q : Nat} (hq : SA[k]? = some q) :=
    interval_iff hsa hlcp taken hstart (List.take_prefix _ _) leftEnd rightEnd hq
  constructor
  · rintro ⟨hlk, hkr⟩
    have hrle := rightEnd.1.2
    have hq := List.getElem?_eq_getElem (show k < SA.length by omega)
    exact ⟨_, hq, (enclosed hq).mp ⟨hlk, hkr⟩⟩
  · rintro ⟨q, hq, begins⟩
    exact (enclosed hq).mpr begins

/-- On `aa` both non-empty suffixes begin with `a`. -/
theorem makeLcpLr_exact_aa : ∃ lcpL lcpR, makeLcpLr [2, 1, 0] [0, 1] [] [] = .ok (lcpL, lcpR) ∧
    ∀ i start d : Nat, 1 ≤ i → [2, 1, 0][i]? = some start →
      d < (([97, 97] : List UInt8).drop start).length →
      ∃ l r, rowEnd lcpL i d = .ok l ∧ rowEnd lcpR i d = .ok r ∧
        ∀ k : Nat, l ≤ k ∧ k ≤ r ↔ ∃ q, [2, 1, 0][k]? = some q ∧
          (([97, 97] : List UInt8).drop start).take (d + 1) <+: [97, 97].drop q := by
  have hlcp : ExactLcp [97, 97] [2, 1, 0] [0, 1] := by decide
  exact makeLcpLr_exact (by decide) (by decide) (by decide) hlcp

end Intervals

end SuffixArray.LcpTables
