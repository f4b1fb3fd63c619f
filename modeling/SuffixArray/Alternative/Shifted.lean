import SuffixArray.Alternative.Agreement

/-!
# With a shift the largest character is never placed

The pointers of the first level are as many as the shifted alphabet has characters.
A pass moves the pointer at the character itself, so whatever it places has a
character below their number, and for a positive shift that leaves out the largest
one. The LMS positions have smaller characters than their predecessors. Hence no
run of the alternative header returns an array with the largest character in it.
-/

namespace SuffixArray.Alternative

open Checked SuffixOrder
open InducedSorting (Naming IsLevel idxBits invalid typesOf countsOf headsOf tailsOf)

/-- All entries are positions of characters below `top`, or no positions. -/
def Below (s : List Nat) (top : Nat) (idc : List Nat) : Prop := ∀ e ∈ idc, chr s e < top

section Entries

variable {s idc : List Nat} {top : Nat}

theorem chr_of_le {e : Nat} (h : s.length ≤ e) : chr s e = 0 :=
  List.getD_eq_default s default h

theorem Below.set (h : Below s top idc) {j : Nat} (hj : chr s j < top) (i : Nat) :
    Below s top (idc.set i j) := by
  intro e he
  obtain he | rfl := List.mem_or_eq_of_mem_set he
  · exact h e he
  · exact hj

theorem below_replicate (hpos : 0 < top) (fits : s.length < invalid) (k : Nat) :
    Below s top (List.replicate k invalid) := by
  intro e he
  rw [List.eq_of_mem_replicate he, chr_of_le fits.le]
  exact hpos

theorem Below.append (h : Below s top idc) {j : Nat} (hj : chr s j < top) :
    Below s top (idc ++ [j]) := by
  intro e he
  obtain he | he := List.mem_append.mp he
  · exact h e he
  · rwa [List.mem_singleton.mp he]

/-- The empty suffix goes to slot 0. -/
theorem store_below (h : Below s top idc) (hpos : 0 < top) :
    Ensures (store idc 0 s.length) (Below s top) := by
  intro idc' run
  obtain ⟨-, rfl⟩ := store_eq_ok.mp run
  refine h.set ?_ 0
  rwa [chr_of_le (Nat.le_refl _)]

/-- A placement that returns has read its character and moved a pointer of its own. -/
theorem put_ensures (next : Nat → Nat) (sub moved j : Nat) (state : List Nat × List Nat) :
    Ensures (put next s sub moved j state) (fun state' =>
      (∃ slot, state'.1 = state.1.set slot j) ∧ state'.2.length = state.2.length ∧
      j < s.length ∧ chr s j - moved < state.2.length) := by
  intro state' run
  simp only [put, bind_eq_ok] at run
  obtain ⟨c, hc, b, -, slot, -, idc, hidc, b', hb', x, hx, pointers, hpointers, hstate⟩ := run
  obtain rfl := Except.ok.inj hstate
  obtain ⟨hj, rfl⟩ := List.getElem?_eq_some_iff.mp (load_eq_ok.mp hc)
  obtain ⟨-, rfl⟩ := store_eq_ok.mp hidc
  obtain ⟨-, rfl⟩ := sub_eq_ok.mp hb'
  obtain ⟨hlt, rfl⟩ := store_eq_ok.mp hpointers
  rw [chr_eq_getElem hj]
  exact ⟨⟨slot, rfl⟩, List.length_set .., hj, hlt⟩

end Entries

section Passes

variable {s guessedSA pointers : List Nat} {sTypes : List Bool} {sub top : Nat}

/-- The invariant of both passes. -/
def PassBelow (s : List Nat) (top : Nat) (state : List Nat × List Nat) : Prop :=
  Below s top state.1 ∧ state.2.length ≤ top

/-- The pointer is moved at the character itself, which is thereby below their number. -/
theorem put_below {state : List Nat × List Nat} (h : PassBelow s top state) (next : Nat → Nat)
    (j : Nat) : Ensures (put next s sub 0 j state) (PassBelow s top) := by
  refine (put_ensures next sub 0 j state).mono ?_
  rintro state' ⟨⟨slot, hslot⟩, hlength, -, hlt⟩
  have hj : chr s j < top := hlt.trans_le h.2
  exact ⟨hslot ▸ h.1.set hj slot, hlength ▸ h.2⟩

theorem lInduceSort_below (h : Below s top guessedSA) (few : pointers.length ≤ top) :
    Ensures (lInduceSort guessedSA s sTypes pointers sub) (PassBelow s top) :=
  Ensures.forSlots (PassBelow s top) ⟨h, few⟩ (fun _ _ h => Ensures.bind_any (fun _ _ =>
    Ensures.ite (fun _ => Ensures.ite (fun _ => Ensures.bind_any (fun _ _ =>
      Ensures.ite (fun _ => put_below h _ _) (fun _ => Ensures.pure h)))
      (fun _ => Ensures.pure h)) (fun _ => Ensures.pure h)))

theorem sInduceSort_below (h : Below s top guessedSA) (few : pointers.length ≤ top) :
    Ensures (sInduceSort guessedSA s sTypes pointers sub) (PassBelow s top) :=
  Ensures.forSlotsDown (PassBelow s top) ⟨h, few⟩ (fun _ _ h => Ensures.bind_any (fun _ _ =>
    Ensures.ite (fun _ => Ensures.ite (fun _ => Ensures.bind_any (fun _ _ =>
      Ensures.ite (fun _ => put_below h _ _) (fun _ => Ensures.pure h)))
      (fun _ => Ensures.pure h)) (fun _ => Ensures.pure h)))

end Passes

section Levels

variable {s : List Nat} {lo size top : Nat}

theorem isLMS_of_idxIsLMSC {i : Nat} (hi : i < s.length)
    (h : idxIsLMSC i (typesOf s) = .ok true) : IsLMS s i := by
  obtain rfl | hpos := Nat.eq_zero_or_pos i
  · exact nomatch Except.ok.inj h
  · rw [idxIsLMSC, if_pos (Nat.ne_of_gt hpos), InducedSorting.idxIsLMSC_eq hpos hi] at h
    exact of_decide_eq_true (Except.ok.inj h)

/-- The character before an LMS position is a larger one. -/
theorem chr_lt_of_isLMS (upper : ∀ c ∈ s, c ≤ top) {q : Nat} (hq : IsLMS s q) : chr s q < top := by
  obtain ⟨k, rfl⟩ := Nat.exists_eq_add_of_le' hq.1
  exact hq.chr_lt.trans_le (upper _ (chr_mem (Nat.lt_of_succ_lt hq.2.1)))

theorem guessSortLMS_below (upper : ∀ c ∈ s, c ≤ top) (hpos : 0 < top) (fits : s.length < invalid)
    (tails : List Nat) (sub : Nat) : Ensures (guessSortLMS s (typesOf s) tails sub)
      (fun guessed => Below s top guessed.1) := by
  refine Ensures.bind (Ensures.forUp (fun state => Below s top state.placed.1)
    (below_replicate hpos fits _) (fun i state h => ?_)) (fun state h => ?_)
  · refine Ensures.bind_any (fun lms test => Ensures.ite (fun hlms => ?_) (fun _ => Ensures.pure h))
    refine Ensures.bind (put_ensures _ sub sub i state.placed) ?_
    rintro placed ⟨⟨slot, hslot⟩, -, hi, -⟩
    have hq := isLMS_of_idxIsLMSC hi (test.trans (congrArg Except.ok hlms))
    refine Ensures.pure ?_
    change Below s top placed.1
    rw [hslot]
    exact h.set (chr_lt_of_isLMS upper hq) slot
  · exact Ensures.bind (store_below h hpos) (fun _ h => Ensures.pure h)

/-- Named positions have characters below `top`. -/
def NamedBelow (s : List Nat) (top : Nat) (lms : List Nat) : Prop :=
  ∀ (q name : Nat), lms[q]? = some name → name ≠ invalid → chr s q < top

theorem NamedBelow.set {lms : List Nat} (h : NamedBelow s top lms) {q : Nat}
    (hq : chr s q < top) (name : Nat) : NamedBelow s top (lms.set q name) := by
  intro p name' hp hname
  by_cases same : q = p
  · rwa [← same]
  · rw [List.getElem?_set_ne same] at hp
    exact h p name' hp hname

theorem nameStep_below {guessedSA : List Nat} (h : Below s top guessedSA)
    (allLms : List (Nat × Nat)) (i : Nat) {state : Naming} (hnamed : NamedBelow s top state.lms) :
    Ensures (nameStep s guessedSA allLms i state) (fun state => NamedBelow s top state.lms) := by
  refine Ensures.bind_any (fun q hload => ?_)
  have hq : chr s q < top := h _ (List.mem_of_getElem? (load_eq_ok.mp hload))
  cases allLms.lookup q with
  | none => exact Ensures.pure hnamed
  | some next =>
      have tail : ∀ name, Ensures (do
          let lms ← store state.lms q name
          return ({ curName := name, lms := lms, lmsBefFir := q, lmsBefSec := next } : Naming))
          (fun state => NamedBelow s top state.lms) := by
        refine fun name => Ensures.bind_any (fun lms run => Ensures.pure ?_)
        obtain ⟨-, rfl⟩ := store_eq_ok.mp run
        exact hnamed.set hq name
      exact Ensures.bind_any (fun _ _ =>
        Ensures.ite (fun _ => tail _) (fun _ => Ensures.bind_any (fun name _ => tail name)))

theorem collectNames_below {lms : List Nat} (h : NamedBelow s top lms) :
    Ensures (InducedSorting.collectNames lms) (fun collected => Below s top collected.2) := by
  refine Ensures.forUp (fun collected : List Nat × List Nat => Below s top collected.2)
    (fun _ hmem => nomatch hmem) (fun i collected hcollected => ?_)
  refine Ensures.bind_any (fun name hname => Ensures.ite (fun hne => Ensures.pure ?_)
    (fun _ => Ensures.pure hcollected))
  exact hcollected.append (h i name (load_eq_ok.mp hname) hne)

theorem summarizeSA_below {guessedSA : List Nat} (h : Below s top guessedSA)
    (allLms : List (Nat × Nat)) : Ensures (summarizeSA s guessedSA allLms)
      (fun summarized => Below s top summarized.summIdc) := by
  refine Ensures.bind_any (fun first hfirst => Ensures.bind_any (fun lms hlms => ?_))
  have init : NamedBelow s top lms := by
    obtain ⟨-, rfl⟩ := store_eq_ok.mp hlms
    refine NamedBelow.set (fun q name hq hname => ?_)
      (h _ (List.mem_of_getElem? (load_eq_ok.mp hfirst))) 0
    exact absurd (List.eq_of_mem_replicate (List.mem_of_getElem? hq)) hname
  refine Ensures.bind (Ensures.forUp (fun state => NamedBelow s top state.lms) init
    (fun i state hnamed => nameStep_below h allLms i hnamed)) (fun named hnamed => ?_)
  exact Ensures.bind (collectNames_below hnamed)
    (fun collected hcollected => Ensures.bind_any (fun _ _ => Ensures.pure hcollected))

theorem lmsSort_below {tails : List Nat} {summIdc : List Nat} (h : Below s top summIdc)
    (hpos : 0 < top) (fits : s.length < invalid) (sTypes : List Bool) (summarySA : List Nat)
    (sub : Nat) : Ensures (lmsSort s tails sTypes summarySA summIdc sub) (Below s top) := by
  refine Ensures.bind_any (fun start _ => Ensures.bind (Ensures.forDown
    (fun state => Below s top state.1) (below_replicate hpos fits _) (fun i state hstate => ?_))
    (fun state hstate => store_below hstate hpos))
  refine Ensures.bind_any (fun r _ => Ensures.bind_any (fun idx hidx => ?_))
  refine (put_ensures _ sub sub idx state).mono ?_
  rintro state' ⟨⟨slot, hslot⟩, -, -, -⟩
  rw [hslot]
  exact hstate.set (h idx (List.mem_of_getElem? (load_eq_ok.mp hidx))) slot

theorem length_tailsOf (s : List Nat) (lo size : Nat) : (tailsOf s lo size).length = size - lo := by
  rw [tailsOf, List.length_map, List.length_range]

theorem length_headsOf (s : List Nat) (lo size : Nat) : (headsOf s lo size).length = size - lo := by
  rw [headsOf, List.length_map, List.length_range]

/-- What the first level keeps for the end names no position of the largest character. -/
theorem firstToStack_below (level : IsLevel s lo (top + 1)) (shifted : 0 < lo) :
    Ensures (firstToStack lo s (top + 1)) (fun pushed => pushed.element.alphCont = s ∧
      pushed.element.sTypes = typesOf s ∧ pushed.element.counts = countsOf s lo (top + 1) ∧
      Below s top pushed.element.summIdc) := by
  have hlo := level.lo_lt_size
  have hpos : 0 < top := by omega
  have few : top + 1 - lo ≤ top := by omega
  have upper : ∀ c ∈ s, c ≤ top := fun c hc => Nat.le_of_lt_succ (level.lt_size c hc)
  rw [firstToStack, reduce, InducedSorting.makeSTypes_eq level.pos, ok_bind, sub_of_le hlo.le,
    ok_bind, InducedSorting.makeCounts_eq level, ok_bind, InducedSorting.makeBuckets_tails level,
    ok_bind, InducedSorting.makeBuckets_heads level]
  refine Ensures.bind (guessSortLMS_below upper hpos level.fits _ lo) (fun guessed hguessed => ?_)
  rw [ok_bind]
  refine Ensures.bind (lInduceSort_below hguessed (by rwa [length_headsOf])) (fun afterL hL => ?_)
  refine Ensures.bind (sInduceSort_below hL.1 (by rwa [length_tailsOf])) (fun afterS hS => ?_)
  exact Ensures.bind (summarizeSA_below hS.1 _) (fun _ h => Ensures.pure ⟨rfl, rfl, rfl, h⟩)

theorem lastFromStack_below (level : IsLevel s lo (top + 1)) (shifted : 0 < lo)
    {summIdc : List Nat} (h : Below s top summIdc) (summarySA : List Nat) :
    Ensures (lastFromStack lo ⟨s, typesOf s, summIdc, countsOf s lo (top + 1)⟩ summarySA)
      (Below s top) := by
  have hlo := level.lo_lt_size
  have hpos : 0 < top := by omega
  have few : top + 1 - lo ≤ top := by omega
  rw [lastFromStack, induce, InducedSorting.makeBuckets_tails level, ok_bind,
    InducedSorting.makeBuckets_heads level]
  refine Ensures.bind (lmsSort_below h hpos level.fits _ summarySA lo) (fun idc hidc => ?_)
  rw [ok_bind]
  refine Ensures.bind (lInduceSort_below hidc (by rwa [length_headsOf])) (fun afterL hL => ?_)
  exact Ensures.bind (sInduceSort_below hL.1 (by rwa [length_tailsOf]))
    (fun _ hS => Ensures.pure hS.1)

end Levels

/-- No entry of a returned array is a position of the largest character. -/
theorem run_below {data : List UInt8} {lower upper : Nat}
    (level : IsLevel (data.map UInt8.toNat) lower (upper + 1)) (shifted : 0 < lower) (fuel : Nat) :
    Ensures (run fuel lower data upper) (Below (data.map UInt8.toNat) upper) := by
  refine Ensures.bind_any (fun size hsize => ?_)
  obtain ⟨-, rfl⟩ := add_eq_ok.mp hsize
  refine Ensures.bind (firstToStack_below level shifted) ?_
  rintro ⟨⟨_, _, summIdc, _⟩, summary, summS, summAlphS⟩ ⟨rfl, rfl, rfl, h⟩
  exact Ensures.bind_any (fun _ _ => Ensures.bind_any (fun _ _ => Ensures.bind_any (fun sa _ =>
    lastFromStack_below level shifted h sa)))

/-- The headers return the same array if and only if the alphabet is not shifted. -/
theorem returns_same_iff {data : List UInt8} {min max : UInt8} {fuel : Nat}
    (two : 2 ≤ data.length) (fits : data.length < 2 ^ idxBits - 1)
    (smallest : min ∈ data ∧ ∀ c ∈ data, min ≤ c) (largest : max ∈ data ∧ ∀ c ∈ data, c ≤ max)
    (enough : data.length ≤ fuel) :
    (∃ sa, InducedSorting.run fuel min.toNat data max.toNat = .ok sa ∧
      run fuel min.toNat data max.toNat = .ok sa) ↔ min = 0 := by
  have level : IsLevel (data.map UInt8.toNat) min.toNat (max.toNat + 1) :=
    InducedSorting.isLevel_bytes (by omega) fits
      (fun c hc => UInt8.le_iff_toNat_le.mp (smallest.2 c hc))
      (fun c hc => UInt8.le_iff_toNat_le.mp (largest.2 c hc))
  have byte : max.toNat + 1 < 2 ^ idxBits :=
    Nat.lt_of_le_of_lt (Nat.succ_le_of_lt max.toNat_lt) (by decide)
  obtain ⟨sa, hrun, hsa⟩ := InducedSorting.run_eq level byte enough
  constructor
  · rintro ⟨sa', hrun', halt⟩
    obtain rfl : sa = sa' := Except.ok.inj (hrun.symm.trans hrun')
    by_contra hne
    have shifted : 0 < min.toNat := Nat.pos_of_ne_zero (fun h => hne (UInt8.toNat_inj.mp h))
    obtain ⟨p, hp, hmax⟩ := List.mem_iff_getElem.mp largest.1
    have hp' : p < (data.map UInt8.toNat).length := by rwa [List.length_map]
    have hlt := run_below level shifted fuel sa halt p (hsa.mem_iff.mpr hp'.le)
    rw [chr_eq_getElem hp', List.getElem_map, hmax] at hlt
    exact Nat.lt_irrefl _ hlt
  · rintro rfl
    exact ⟨sa, hrun, run_refines level byte fuel sa hrun⟩

theorem returns_same_iff_nul : ∃ sa, InducedSorting.run 2 0 [0, 1] 1 = .ok sa ∧
    run 2 0 [0, 1] 1 = .ok sa :=
  (@returns_same_iff [0, 1] 0 1 2 (by decide) (by decide) (by simp) (by simp) (by decide)).mpr rfl

/-- "ab": the pointer of `b` is looked for at subscript 98 of two. -/
theorem shift_dropped : InducedSorting.run 2 97 [97, 98] 98 = .ok [2, 0, 1] ∧
    run 2 97 [97, 98] 98 = .error .outOfRange := by
  decide +kernel

end SuffixArray.Alternative
