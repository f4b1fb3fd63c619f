import SuffixArray.LcpBehind

/-!
# How long `make_lcp` takes

A comparison that is carried over is not made again. Each iteration gives up one of the
characters matched so far and makes at most one comparison that fails.
-/

namespace SuffixArray.Lcp

open Checked
open InducedSorting (idxBits)

/-- How often `std::equal` calls `Compare`, with `rest` positions of the data left. -/
def compareCalls (data : List UInt8) : (rest p q : Nat) → Run Nat
  | 0, _, _ => return 0
  | rest + 1, p, q => do
    let a ← load data p
    let b ← load data q
    if a = b then
      let calls ← compareCalls data rest (p + 1) (q + 1)
      return calls + 1
    else
      return 1

/-- One iteration of `make_lcp`, with the calls made so far. -/
def lcpStepCalls (behind : Option Nat) (data : List UInt8) (SA invSA : List Nat) (i : Nat)
    (counted : (Nat × List Nat) × Nat) : Run ((Nat × List Nat) × Nat) := do
  let (state, before) := counted
  let rank ← load invSA i
  let next ← loadBehind SA behind (← inc idxBits rank)
  let rest ← Checked.sub data.length (i + state.1)
  let calls ← compareCalls data rest (i + state.1) (next + state.1)
  let state ← lcpStepBehind behind data SA invSA i state
  return (state, before + calls)

/-- The calls in `make_lcp`. -/
def makeLcpCalls (behind : Option Nat) (data : List UInt8) (SA : List Nat) : Run Nat := do
  let invSA ← makeInverse SA data.length
  let counted ← forUp idxBits 0 data.length (lcpStepCalls behind data SA invSA)
    ((0, List.replicate SA.length 0), 0)
  return counted.2

variable {behind : Option Nat} {data : List UInt8} {SA invSA : List Nat}

/-- All calls but the last one have counted. -/
theorem equalFrom_calls (rest p q h : Nat) : Ensures (equalFrom data rest p q h)
    (fun h' => ∃ calls, compareCalls data rest p q = .ok calls ∧ calls + h ≤ h' + 1 ∧
      h' ≤ h + rest) := by
  induction rest generalizing p q h with
  | zero => exact Ensures.pure ⟨0, rfl, by omega, by omega⟩
  | succ rest ih =>
      rw [equalFrom]
      refine Ensures.bind_any (fun a ha => Ensures.bind_any (fun b hb => Ensures.ite ?_ ?_))
      · intro same
        refine Ensures.bind_any (fun k hk => (ih (p + 1) (q + 1) k).mono ?_)
        rintro h' ⟨calls, run, lower, upper⟩
        obtain ⟨_, rfl⟩ := add_eq_ok.mp hk
        refine ⟨calls + 1, ?_, by omega, by omega⟩
        rw [compareCalls, ha, ok_bind, hb, ok_bind, if_pos same, run, ok_bind, pure_eq_ok]
      · intro differ
        refine Ensures.pure ⟨1, ?_, by omega, by omega⟩
        rw [compareCalls, ha, ok_bind, hb, ok_bind, if_neg differ, pure_eq_ok]

/-- In front of the iteration at `i`: what is carried stands for calls not to be made again,
and it reaches no further than the data. -/
structure Paid (data : List UInt8) (i : Nat) (state : Nat × List Nat)
    (counted : (Nat × List Nat) × Nat) : Prop where
  same : counted.1 = state
  calls : counted.2 ≤ 2 * i + state.1
  reach : i + state.1 ≤ data.length

theorem Paid.next {i : Nat} {state : Nat × List Nat} {counted : (Nat × List Nat) × Nat}
    (h : Paid data i state counted) (hi : i < data.length) :
    Ensures (lcpStepBehind behind data SA invSA i state)
      (fun state' => ∃ counted', lcpStepCalls behind data SA invSA i counted = .ok counted' ∧
        Paid data (i + 1) state' counted') := by
  obtain ⟨state, before⟩ := counted
  obtain ⟨rfl, hcalls, hreach⟩ := h
  change before ≤ 2 * i + state.1 at hcalls
  change i + state.1 ≤ data.length at hreach
  intro state' run
  obtain ⟨rank, hrank, inner⟩ := bind_eq_ok.mp run
  obtain ⟨successor, hsuccessor, inner⟩ := bind_eq_ok.mp inner
  obtain ⟨next, hnext, inner⟩ := bind_eq_ok.mp inner
  obtain ⟨rest, hrest, inner⟩ := bind_eq_ok.mp inner
  obtain ⟨depth, hdepth, inner⟩ := bind_eq_ok.mp inner
  obtain ⟨lcp, hlcp, hstate⟩ := bind_eq_ok.mp inner
  obtain ⟨calls, hcounted, lower, upper⟩ := equalFrom_calls rest _ _ _ depth hdepth
  have left : data.length - (i + state.1) = rest := (sub_eq_ok.mp hrest).2
  change calls + state.1 ≤ depth + 1 at lower
  change depth ≤ state.1 + rest at upper
  obtain rfl := Except.ok.inj hstate
  refine ⟨(_, before + calls), ?_, rfl, ?_, ?_⟩
  · rw [lcpStepCalls, hrank, ok_bind, hsuccessor, ok_bind, hnext, ok_bind, hrest, ok_bind,
      hcounted, ok_bind, run, ok_bind, pure_eq_ok]
  · change before + calls ≤ 2 * (i + 1) + if depth ≠ 0 then depth - 1 else depth
    split <;> omega
  · change i + 1 + (if depth ≠ 0 then depth - 1 else depth) ≤ data.length
    split <;> omega

/-- Whatever `SA` holds and whatever lies behind it, a run that returns compares at most twice
as often as there are characters. -/
theorem makeLcpCalls_le {lcp : List Nat} (run : makeLcpBehind behind data SA = .ok lcp) :
    ∃ calls, makeLcpCalls behind data SA = .ok calls ∧ calls ≤ 2 * data.length := by
  obtain ⟨invSA, inverse, run⟩ := bind_eq_ok.mp run
  obtain ⟨state, loop, _⟩ := bind_eq_ok.mp run
  obtain ⟨counted, counting, paid⟩ := forUp_sim (Paid data) (Nat.zero_le data.length)
    (show Paid data 0 (0, List.replicate SA.length 0) ((0, List.replicate SA.length 0), 0) from
      ⟨rfl, Nat.le_refl _, Nat.zero_le _⟩)
    (fun i state counted _ hlt h => h.next hlt) state loop
  have calls := paid.calls
  have reach := paid.reach
  exact ⟨counted.2, by rw [makeLcpCalls, inverse, ok_bind, counting, ok_bind, pure_eq_ok], by omega⟩

/-- On `ab` with the word `0` behind the array. -/
theorem makeLcpCalls_le_ab :
    ∃ calls, makeLcpCalls (some 0) [97, 98] [2, 0, 1] = .ok calls ∧ calls ≤ 4 :=
  @makeLcpCalls_le (some 0) [97, 98] [2, 0, 1] [0, 0] (by decide)

end SuffixArray.Lcp
