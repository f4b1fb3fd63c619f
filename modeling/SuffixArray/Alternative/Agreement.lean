import SuffixArray.Alternative
import SuffixArray.InducedSorting.Levels

/-!
# Without a shift both headers compute the same

For `sub = 0` the two subscripts of a placement fall together. What is left to
compare is the map of LMS positions: while the guess runs it holds every LMS
position but the last one found, and after the loop it agrees with the table that
the other header fills from the right.
-/

namespace SuffixArray.Alternative

open Checked SuffixOrder
open InducedSorting (StackElement Naming IsLevel Named idxBits invalid typesOf lmsIdc allLmsOf)

theorem lookup_insert (allLms : List (Nat × Nat)) (key value q : Nat) :
    (insert allLms key value).lookup q =
      if q = key ∧ allLms.lookup key = none then some value else allLms.lookup q := by
  rw [insert]
  cases h : allLms.lookup key with
  | some v => simp
  | none =>
      rw [List.lookup_cons]
      by_cases hq : q = key
      · simp [hq]
      · simp [hq, beq_false_of_ne hq]

/-- The loop variables of `guessSortLMS` behind the positions below `i`. The LMS
position found last is not in the map yet. -/
inductive Recorded (s : List Nat) (i : Nat) : Nat → List (Nat × Nat) → Prop where
  | none_yet (start : lmsFrom s 0 = lmsFrom s i) : Recorded s i invalid []
  | behind {bef : Nat} {allLms : List (Nat × Nat)} (lms : IsLMS s bef)
      (last : nextLMS s bef = lmsFrom s i)
      (lookup : ∀ q, allLms.lookup q = if IsLMS s q ∧ q < bef then some (nextLMS s q) else none) :
      Recorded s i bef allLms

namespace Recorded

variable {s : List Nat} {i bef : Nat} {allLms : List (Nat × Nat)}

theorem skip (h : Recorded s i bef allLms) (hi : i < s.length) (hlms : ¬ IsLMS s i) :
    Recorded s (i + 1) bef allLms := by
  have same := lmsFrom_of_not_isLMS hi hlms
  cases h with
  | none_yet start => exact .none_yet (start.trans same)
  | behind lms last lookup => exact .behind lms (last.trans same) lookup

/-- An LMS position below the next one after `bef` is `bef` or lies below it. -/
theorem lt_iff (lms : IsLMS s bef) {q : Nat} (hq : IsLMS s q) :
    q < nextLMS s bef ↔ q = bef ∨ q < bef := by
  have next := (nextLMS_bounds lms.2.1).1
  constructor
  · intro hlt
    by_contra hgt
    exact not_isLMS_of_lt_lmsFrom (show bef + 1 ≤ q by omega) hlt hq
  · omega

/-- What is inserted for the LMS position found last is the next one. -/
theorem lookup_insert_last (lms : IsLMS s bef)
    (lookup : ∀ q, allLms.lookup q = if IsLMS s q ∧ q < bef then some (nextLMS s q) else none)
    (q : Nat) : (insert allLms bef (nextLMS s bef)).lookup q =
      if IsLMS s q ∧ q < nextLMS s bef then some (nextLMS s q) else none := by
  have absent : allLms.lookup bef = none :=
    (lookup bef).trans (if_neg (fun h => Nat.lt_irrefl _ h.2))
  rw [lookup_insert]
  by_cases hq : IsLMS s q
  · have below := lt_iff lms hq
    by_cases heq : q = bef
    · rw [if_pos ⟨heq, absent⟩, if_pos ⟨hq, below.mpr (Or.inl heq)⟩, heq]
    · rw [if_neg (fun h => heq h.1), lookup q]
      exact if_congr (and_congr_right' (below.trans (or_iff_right heq)).symm) rfl rfl
  · have heq : q ≠ bef := fun h => hq (h ▸ lms)
    rw [if_neg (fun h => heq h.1), lookup q, if_neg (fun h => hq h.1), if_neg (fun h => hq h.1)]

theorem found (h : Recorded s i bef allLms) (fits : s.length < invalid) (hlms : IsLMS s i) :
    Recorded s (i + 1) i (if bef ≠ invalid then insert allLms bef i else allLms) := by
  have here := lmsFrom_of_isLMS hlms
  refine .behind hlms rfl (fun q => ?_)
  cases h with
  | none_yet start =>
      rw [if_neg (not_not_intro rfl), List.lookup_nil, if_neg]
      rintro ⟨hq, hlt⟩
      exact not_isLMS_of_lt_lmsFrom (Nat.zero_le q) (start.trans here ▸ hlt) hq
  | behind lms last lookup =>
      have hne : bef ≠ invalid := by
        have := lms.2.1
        omega
      have next := last.trans here
      have := lookup_insert_last lms lookup q
      rw [next] at this
      rw [if_pos hne, this]

/-- The map in the end. -/
theorem finish (h : Recorded s s.length bef allLms) (fits : s.length < invalid) {q : Nat}
    (hq : q ≤ s.length) : (insert allLms bef s.length).lookup q =
      if IsLMS s q then some (nextLMS s q) else none := by
  have end_ := lmsFrom_of_le (Nat.le_refl s.length)
  cases h with
  | none_yet start =>
      have hne : q ≠ invalid := by omega
      rw [lookup_insert, if_neg (fun h => hne h.1), List.lookup_nil, if_neg]
      intro hlms
      exact not_isLMS_of_lt_lmsFrom (Nat.zero_le q) (start.trans end_ ▸ hlms.2.1) hlms
  | behind lms last lookup =>
      have next := last.trans end_
      have := lookup_insert_last lms lookup q
      rw [next] at this
      rw [this]
      exact if_congr (and_iff_left_of_imp (fun h => h.2.1)) rfl rfl

end Recorded

section Placements

variable {alphCont : List Nat} {j : Nat} {state : List Nat × List Nat}

/-- All subscripts of the array are words. -/
def Short (idc : List Nat) : Prop := idc.length ≤ 2 ^ idxBits

theorem Short.set {idc : List Nat} (short : Short idc) (i x : Nat) : Short (idc.set i x) :=
  (List.length_set ..).trans_le short

theorem wrappingSucc_of_inc {x y : Nat} (h : inc idxBits x = .ok y) : wrappingSucc x = y := by
  obtain ⟨hlt, rfl⟩ := add_eq_ok.mp h
  exact Nat.mod_eq_of_lt hlt

theorem wrappingPred_of_sub {x y : Nat} (h : Checked.sub x 1 = .ok y) (hx : x < 2 ^ idxBits) :
    wrappingPred idxBits x = y := by
  obtain ⟨hpos, rfl⟩ := sub_eq_ok.mp h
  obtain ⟨k, rfl⟩ := Nat.exists_eq_add_of_le' hpos
  exact wrappingPred_succ (Nat.lt_of_succ_lt hx)

/-- On the array of a placement, beside its pointers. -/
abbrev ShortArray (state : List Nat × List Nat) : Prop := Short state.1

/-- With the pointer moved that was read, a placement only lets more pass. -/
theorem putLms_refines (sub : Nat) (short : ShortArray state) :
    RefinedBy ShortArray (InducedSorting.putTail alphCont sub j state)
      (putLms alphCont sub j state) := by
  intro t run
  simp only [InducedSorting.putTail, bind_eq_ok] at run
  obtain ⟨c, hc, b, hb, slot, hslot, idc, hidc, next, hnext, tails, htails, ht⟩ := run
  obtain ⟨hlt, rfl⟩ := store_eq_ok.mp hidc
  obtain rfl := Except.ok.inj ht
  refine ⟨?_, short.set _ _⟩
  have moved := wrappingPred_of_sub hnext (hlt.trans_le short)
  simp only [putLms, put, hc, hb, hslot, hidc, moved, htails, ok_bind, pure_eq_ok]

theorem putTail_refines (short : ShortArray state) :
    RefinedBy ShortArray (InducedSorting.putTail alphCont 0 j state)
      (putTail alphCont 0 j state) :=
  putLms_refines 0 short

theorem putHead_refines (short : ShortArray state) :
    RefinedBy ShortArray (InducedSorting.putHead alphCont 0 j state)
      (putHead alphCont 0 j state) := by
  intro t run
  simp only [InducedSorting.putHead, bind_eq_ok] at run
  obtain ⟨c, hc, b, hb, slot, hslot, idc, hidc, next, hnext, heads, hheads, ht⟩ := run
  obtain ⟨hlt, rfl⟩ := store_eq_ok.mp hidc
  obtain rfl := Except.ok.inj ht
  refine ⟨?_, short.set _ _⟩
  have moved := wrappingSucc_of_inc hnext
  simp only [putHead, put, hc, hb, hslot, hidc, moved, hheads, ok_bind, pure_eq_ok]

variable {sTypes : List Bool} {guessedSA pointers : List Nat}

theorem lInduceSort_refines (short : Short guessedSA) :
    RefinedBy ShortArray (InducedSorting.lInduceSort guessedSA alphCont sTypes pointers 0)
      (lInduceSort guessedSA alphCont sTypes pointers 0) :=
  RefinedBy.forSlots ShortArray short (fun _ _ h =>
    RefinedBy.bind_same (fun _ =>
      RefinedBy.ite (RefinedBy.ite (RefinedBy.bind_same (fun _ =>
        RefinedBy.ite (putHead_refines h) (RefinedBy.pure h))) (RefinedBy.pure h))
        (RefinedBy.pure h)))

theorem sInduceSort_refines (short : Short guessedSA) :
    RefinedBy ShortArray (InducedSorting.sInduceSort guessedSA alphCont sTypes pointers 0)
      (sInduceSort guessedSA alphCont sTypes pointers 0) :=
  RefinedBy.forSlotsDown ShortArray short (fun _ _ h =>
    RefinedBy.bind_same (fun _ =>
      RefinedBy.ite (RefinedBy.ite (RefinedBy.bind_same (fun _ =>
        RefinedBy.ite (putTail_refines h) (RefinedBy.pure h))) (RefinedBy.pure h))
        (RefinedBy.pure h)))

end Placements

section Levels

variable {s : List Nat} {sub : Nat}

theorem short_replicate (fits : s.length < invalid) :
    Short (List.replicate (s.length + 1) invalid) := by
  rw [Short, List.length_replicate]
  exact Nat.le_of_lt (Nat.lt_of_le_of_lt (Nat.succ_le_of_lt fits) (by decide))

/-- The guess is that of the other header, and the map holds the LMS positions. -/
theorem guessSortLMS_refines (pos : 0 < s.length) (fits : s.length < invalid) (tails : List Nat) :
    Ensures (InducedSorting.guessSortLMS s (typesOf s) tails sub) (fun guessedSA => ∃ allLms,
      guessSortLMS s (typesOf s) tails sub = .ok (guessedSA, allLms) ∧
      Short guessedSA ∧ ∀ q, q ≤ s.length →
        allLms.lookup q = if IsLMS s q then some (nextLMS s q) else none) := by
  intro guessedSA run
  obtain ⟨placed, loop, hstore⟩ := bind_eq_ok.mp run
  let rel (i : Nat) (placed : List Nat × List Nat) (state : Guessing) : Prop :=
    state.placed = placed ∧ ShortArray placed ∧ Recorded s i state.lmsBef state.allLms
  have first : ¬ IsLMS s 0 := fun h => Nat.lt_irrefl 0 h.1
  have init : rel 1 (List.replicate (s.length + 1) invalid, tails)
      { placed := (List.replicate (s.length + 1) invalid, tails), allLms := [],
        lmsBef := invalid } :=
    ⟨rfl, short_replicate fits, .none_yet (lmsFrom_of_not_isLMS pos first)⟩
  have step : ∀ i placed state, 1 ≤ i → i < s.length → rel i placed state → Ensures (do
      if ← InducedSorting.idxIsLMSC i (typesOf s) then InducedSorting.putTail s sub i placed
      else return placed) (fun placed' => ∃ state',
        guessStep s (typesOf s) sub i state = .ok state' ∧ rel (i + 1) placed' state') := by
    rintro i _ ⟨placed, allLms, bef⟩ hpos hi ⟨rfl, short, h⟩
    have test : idxIsLMSC i (typesOf s) = .ok (decide (IsLMS s i)) := by
      rw [idxIsLMSC, if_pos (Nat.ne_of_gt hpos), InducedSorting.idxIsLMSC_eq hpos hi]
    rw [InducedSorting.idxIsLMSC_eq hpos hi, ok_bind, guessStep, test, ok_bind]
    by_cases hlms : IsLMS s i
    · rw [if_pos (decide_eq_true hlms), if_pos (decide_eq_true hlms)]
      refine (putLms_refines sub short).mono ?_
      rintro placed' ⟨run, short'⟩
      exact ⟨_, by rw [run, ok_bind, pure_eq_ok], rfl, short', h.found fits hlms⟩
    · have no : ¬ decide (IsLMS s i) = true := fun h => hlms (of_decide_eq_true h)
      rw [if_neg no, if_neg no]
      exact Ensures.pure ⟨_, rfl, rfl, short, h.skip hi hlms⟩
  obtain ⟨⟨_, allLms, bef⟩, loop', rfl, short, h⟩ := forUp_sim rel pos init step placed loop
  obtain ⟨hlt, rfl⟩ := store_eq_ok.mp hstore
  refine ⟨_, ?_, short.set _ _, fun q hq => h.finish fits hq⟩
  have fits' : s.length < 2 ^ idxBits := Nat.lt_of_lt_of_le fits (Nat.sub_le _ _)
  rw [guessSortLMS, forUp_first pos fits', guessStep, idxIsLMSC, if_neg (not_not_intro rfl),
    pure_eq_ok, ok_bind, if_neg Bool.false_ne_true, pure_eq_ok, ok_bind, loop', ok_bind, hstore,
    ok_bind, pure_eq_ok]

/-- Looking a position up in the map and in the table comes to the same. -/
theorem nameStep_refines {guessedSA : List Nat} {allLms : List (Nat × Nat)}
    (lookup : ∀ q, q ≤ s.length →
      allLms.lookup q = if IsLMS s q then some (nextLMS s q) else none) (i : Nat) (state : Naming) :
    RefinedBy (fun _ => True) (InducedSorting.nameStep s guessedSA (allLmsOf s) i state)
      (nameStep s guessedSA allLms i state) := by
  refine RefinedBy.bind_same (fun q t run => ⟨?_, trivial⟩)
  obtain ⟨next, hnext, run⟩ := bind_eq_ok.mp run
  obtain ⟨hq, hvalue⟩ := List.getElem?_eq_some_iff.mp (load_eq_ok.mp hnext)
  rw [allLmsOf, List.length_map, List.length_range] at hq
  rw [lookup q (Nat.le_of_lt_succ hq)]
  simp only [allLmsOf, List.getElem_map, List.getElem_range] at hvalue
  by_cases hlms : IsLMS s q
  · have hne : next ≠ 0 := by
      have := (nextLMS_bounds hlms.2.1).1
      rw [← hvalue, if_pos hlms]
      omega
    rw [if_pos hlms] at hvalue ⊢
    rw [if_pos hne] at run
    rwa [hvalue]
  · rw [if_neg hlms] at hvalue ⊢
    rwa [if_neg (not_not_intro hvalue.symm)] at run

theorem summarizeSA_refines (pos : 0 < s.length) {guessedSA : List Nat}
    {allLms : List (Nat × Nat)} (lookup : ∀ q, q ≤ s.length →
      allLms.lookup q = if IsLMS s q then some (nextLMS s q) else none) :
    RefinedBy (fun _ => True) (InducedSorting.summarizeSA s guessedSA (typesOf s))
      (summarizeSA s guessedSA allLms) := by
  refine RefinedBy.bind_same (fun first => RefinedBy.bind_same (fun lms => ?_))
  rw [InducedSorting.makeAllLms_eq pos, ok_bind]
  exact RefinedBy.bind (RefinedBy.forUp (fun _ => True) trivial
    (fun i state _ => nameStep_refines lookup i state)) (fun _ _ => RefinedBy.same _)

theorem toStack_refines (pos : 0 < s.length) (fits : s.length < invalid) (size : Nat) :
    Ensures (InducedSorting.toStack s size 0) (fun pushed => toStack s size = .ok pushed) := by
  intro pushed run
  simp only [InducedSorting.toStack, InducedSorting.guess, InducedSorting.makeSTypes_eq pos,
    ok_bind, bind_eq_ok, pure_eq_ok] at run
  obtain ⟨g, ⟨size', hsize, counts, hcounts, tails, htails, guessed, hguessed, heads, hheads,
    afterL, hafterL, afterS, hafterS, hg⟩, summarized, hsummarized, hpushed⟩ := run
  obtain rfl := Except.ok.inj hg
  obtain ⟨allLms, hguessed', short, lookup⟩ := guessSortLMS_refines pos fits tails guessed hguessed
  obtain ⟨hafterL', shortL⟩ := lInduceSort_refines short afterL hafterL
  obtain ⟨hafterS', -⟩ := sInduceSort_refines shortL afterS hafterS
  obtain ⟨hsummarized', -⟩ := summarizeSA_refines pos lookup summarized hsummarized
  simp only [toStack, reduce, InducedSorting.makeSTypes_eq pos, hsize, hcounts, htails, hguessed',
    hheads, hafterL', hafterS', hsummarized', ok_bind, hpushed, pure_eq_ok]

theorem lmsSort_refines (fits : s.length < invalid) (tails : List Nat) (sTypes : List Bool)
    (summarySA summIdc : List Nat) :
    RefinedBy Short
      (InducedSorting.lmsSort s tails sTypes summarySA summIdc sub)
      (lmsSort s tails sTypes summarySA summIdc sub) := by
  refine RefinedBy.bind_same (fun start => RefinedBy.bind (RefinedBy.forDown ShortArray
    (short_replicate fits) (fun _ _ short => RefinedBy.bind_same (fun _ =>
      RefinedBy.bind_same (fun _ => putLms_refines sub short)))) (fun placed short idc run => ?_))
  refine ⟨run, ?_⟩
  obtain ⟨-, rfl⟩ := store_eq_ok.mp run
  exact short.set _ _

theorem fromStack_refines {top : StackElement} (fits : top.alphCont.length < invalid)
    (summarySA : List Nat) :
    Ensures (InducedSorting.fromStack top summarySA 0)
      (fun sa => fromStack top summarySA = .ok sa) := by
  intro sa run
  simp only [InducedSorting.fromStack, bind_eq_ok] at run
  obtain ⟨tails, htails, heads, hheads, idc, hidc, afterL, hafterL, afterS, hafterS, hsa⟩ := run
  obtain ⟨hidc', short⟩ := lmsSort_refines fits tails _ _ _ idc hidc
  obtain ⟨hafterL', shortL⟩ := lInduceSort_refines short afterL hafterL
  obtain ⟨hafterS', -⟩ := sInduceSort_refines shortL afterS hafterS
  simp only [fromStack, induce, htails, hidc', hheads, hafterL', hafterS', ok_bind, hsa]

end Levels

open InducedSorting (toStack_eq)

/-- The stack of the other header is reproduced level by level. -/
theorem populate_refines {s : List Nat} {lo size top : Nat} {f : Nat → Nat}
    (level : IsLevel s lo size) (named : Named s f top) (fuel : Nat) {stack : List StackElement}
    (short : ∀ e ∈ stack, e.alphCont.length < invalid) :
    RefinedBy (fun populated => ∀ e ∈ populated.1, e.alphCont.length < invalid)
      (InducedSorting.populate fuel stack ((lmsIdc s).map f) ((lmsIdc s).map f).length (top + 1))
      (populate fuel stack ((lmsIdc s).map f) ((lmsIdc s).map f).length (top + 1)) := by
  induction fuel generalizing s lo size top f stack with
  | zero =>
      rw [InducedSorting.populate, populate]
      refine RefinedBy.ite (RefinedBy.pure short) ?_
      rintro _ ⟨⟩
  | succ fuel ih =>
      rw [InducedSorting.populate, populate]
      refine RefinedBy.ite (RefinedBy.pure short) ?_
      have level' := named.isLevel level
      obtain ⟨f', top', pushed, named'⟩ := toStack_eq level'
      have pushed' := toStack_refines level'.pos level'.fits _ _ pushed
      rw [pushed, pushed', ok_bind, ok_bind]
      refine ih level' named' (fun e he => ?_)
      obtain rfl | he := List.mem_cons.mp he
      · exact level'.fits
      · exact short e he

theorem unwind_refines {stack : List StackElement}
    (short : ∀ e ∈ stack, e.alphCont.length < invalid) (summary : List Nat) :
    Ensures (InducedSorting.unwind stack summary) (fun sa => unwind stack summary = .ok sa) := by
  induction stack generalizing summary with
  | nil => exact fun _ run => run
  | cons top stack ih =>
      have fits := short top List.mem_cons_self
      refine Ensures.bind (fromStack_refines fits summary) (fun sa run => ?_)
      rw [unwind, run, ok_bind]
      exact ih (fun e he => short e (List.mem_cons_of_mem _ he)) sa

/-- With the smallest byte 0 the two headers return the same array. -/
theorem run_refines {data : List UInt8} {upper : Nat}
    (level : IsLevel (data.map UInt8.toNat) 0 (upper + 1)) (byte : upper + 1 < 2 ^ idxBits)
    (fuel : Nat) : Ensures (InducedSorting.run fuel 0 data upper)
      (fun sa => run fuel 0 data upper = .ok sa) := by
  obtain ⟨f, top, pushed, named⟩ := toStack_eq level
  have pushed' : firstToStack 0 _ _ = _ := toStack_refines level.pos level.fits _ _ pushed
  rw [InducedSorting.run, run, inc_of_lt byte, ok_bind, ok_bind, pushed, pushed', ok_bind, ok_bind]
  refine Ensures.bind (populate_refines level named fuel (by simp)) ?_
  rintro populated ⟨hpopulated, short⟩
  refine Ensures.bind_any (fun summary hsummary => ?_)
  refine Ensures.bind (unwind_refines short summary) (fun sa hunwind => ?_)
  refine (fromStack_refines level.fits sa).mono (fun result hresult => ?_)
  rw [hpopulated, ok_bind, hsummary, ok_bind, hunwind, ok_bind]
  exact hresult

end SuffixArray.Alternative
