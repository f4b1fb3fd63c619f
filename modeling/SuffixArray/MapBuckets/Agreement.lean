import SuffixArray.Alternative.Agreement
import SuffixArray.MapBuckets.Bounds

/-!
# The maps of buckets change nothing

A pass only asks for the bucket of a character that occurs, and for such characters one side
of the pairs is the vector of pointers that the included header keeps. So both headers place
the same positions at the same slots, level by level, and no smallest and largest character
need to be known.
-/

namespace SuffixArray.MapBuckets

open Checked SuffixOrder
open HeadsTails (get set)
open InducedSorting (IsLevel Named below upTo idxBits invalid typesOf tailsOf headsOf countsOf
  lmsIdc)

section Pointers

variable {β : Type} [HeadsTails β] [LawfulHeadsTails β]
variable {s : List Nat} {lo size : Nat} {m : β} {pointers : List Nat} {side : Nat × Nat → Nat}

/-- The pointers are one side of the pairs. -/
def Sides (s : List Nat) (lo : Nat) (side : Nat × Nat → Nat) (pointers : List Nat) (m : β) : Prop :=
  ∀ c ∈ s, ∃ p, get m c = .ok p ∧ pointers[c - lo]? = some (side p)

theorem Sides.set (h : Sides s lo side pointers m) (above : ∀ c ∈ s, lo ≤ c) {c : Nat}
    (hc : c ∈ s) {p : Nat × Nat} (hp : get m c = .ok p) (q : Nat × Nat) :
    ∃ m', set m c q = .ok m' ∧ Sides s lo side (pointers.set (c - lo) (side q)) m' := by
  obtain ⟨m', assigned, pairs⟩ := LawfulHeadsTails.exists_set hp q
  refine ⟨m', assigned, fun d hd => ?_⟩
  obtain ⟨p', hp', pointer⟩ := h d hd
  rw [pairs]
  by_cases same : d = c
  · subst same
    have inside := (List.getElem?_eq_some_iff.mp pointer).1
    exact ⟨q, if_pos rfl, List.getElem?_set_self inside⟩
  · have := above c hc
    have := above d hd
    refine ⟨p', by rw [if_neg same, hp'], ?_⟩
    rw [List.getElem?_set_ne (by omega), pointer]

omit [LawfulHeadsTails β] in
theorem Bounded.tails (h : Bounded s m) (level : IsLevel s lo size) :
    Sides s lo Prod.snd (tailsOf s lo size) m := by
  intro c hc
  have lower := level.lo_le c hc
  have upper := level.lt_size c hc
  refine ⟨_, h c hc, ?_⟩
  rw [tailsOf, List.getElem?_map, List.getElem?_range (by omega), Option.map_some,
    Nat.sub_add_cancel lower]

omit [LawfulHeadsTails β] in
theorem Bounded.heads (h : Bounded s m) (level : IsLevel s lo size) :
    Sides s lo Prod.fst (headsOf s lo size) m := by
  intro c hc
  have lower := level.lo_le c hc
  have upper := level.lt_size c hc
  refine ⟨_, h c hc, ?_⟩
  rw [headsOf, List.getElem?_map, List.getElem?_range (by omega), Option.map_some,
    Nat.sub_add_cancel lower]

/-- The same array, and pointers that are one side of the pairs. -/
def Mirrors (s : List Nat) (lo : Nat) (side : Nat × Nat → Nat) (state : List Nat × List Nat)
    (state' : List Nat × β) : Prop :=
  state'.1 = state.1 ∧ Sides s lo side state.2 state'.2

variable {state : List Nat × List Nat} {state' : List Nat × β}

theorem putTail_simulated (above : ∀ c ∈ s, lo ≤ c) (h : Mirrors s lo Prod.snd state state')
    (j : Nat) : SimulatedBy (Mirrors s lo Prod.snd) (InducedSorting.putTail s lo j state)
      (putTail s j state') := by
  obtain ⟨same, sides⟩ := h
  intro t run
  simp only [InducedSorting.putTail, bind_eq_ok] at run
  obtain ⟨c, hc, b, hb, slot, hslot, idc, hidc, tail, htail, tails, htails, ht⟩ := run
  obtain ⟨lower, rfl⟩ := sub_eq_ok.mp hb
  obtain ⟨p, hp, pointer⟩ := sides c (List.mem_of_getElem? (load_eq_ok.mp hc))
  obtain rfl := Option.some.inj ((load_eq_ok.mp hslot).symm.trans pointer)
  obtain ⟨m', assigned, sides'⟩ :=
    sides.set above (List.mem_of_getElem? (load_eq_ok.mp hc)) hp (p.1, tail)
  obtain ⟨-, rfl⟩ := store_eq_ok.mp htails
  obtain rfl := Except.ok.inj ht
  refine ⟨(idc, m'), ?_, rfl, sides'⟩
  rw [putTail, hc, ok_bind, hp, ok_bind, same, hidc, ok_bind, htail, ok_bind, assigned, ok_bind,
    pure_eq_ok]

theorem putHead_simulated (above : ∀ c ∈ s, lo ≤ c) (h : Mirrors s lo Prod.fst state state')
    (j : Nat) : SimulatedBy (Mirrors s lo Prod.fst) (InducedSorting.putHead s lo j state)
      (putHead s j state') := by
  obtain ⟨same, sides⟩ := h
  intro t run
  simp only [InducedSorting.putHead, bind_eq_ok] at run
  obtain ⟨c, hc, b, hb, slot, hslot, idc, hidc, head, hhead, heads, hheads, ht⟩ := run
  obtain ⟨lower, rfl⟩ := sub_eq_ok.mp hb
  obtain ⟨p, hp, pointer⟩ := sides c (List.mem_of_getElem? (load_eq_ok.mp hc))
  obtain rfl := Option.some.inj ((load_eq_ok.mp hslot).symm.trans pointer)
  obtain ⟨m', assigned, sides'⟩ :=
    sides.set above (List.mem_of_getElem? (load_eq_ok.mp hc)) hp (head, p.2)
  obtain ⟨-, rfl⟩ := store_eq_ok.mp hheads
  obtain rfl := Except.ok.inj ht
  refine ⟨(idc, m'), ?_, rfl, sides'⟩
  rw [putHead, hc, ok_bind, hp, ok_bind, same, hidc, ok_bind, hhead, ok_bind, assigned, ok_bind,
    pure_eq_ok]

variable {sTypes : List Bool} {guessedSA : List Nat}

theorem lInduceSort_simulated (level : IsLevel s lo size) (h : Bounded s m) :
    SimulatedBy (fun after idc => idc = after.1)
      (InducedSorting.lInduceSort guessedSA s sTypes (headsOf s lo size) lo)
      (lInduceSort guessedSA s sTypes m) := by
  have pass : SimulatedBy (Mirrors s lo Prod.fst)
      (InducedSorting.lInduceSort guessedSA s sTypes (headsOf s lo size) lo)
      (forSlots guessedSA.length (lInduceStep s sTypes) (guessedSA, m)) := by
    refine SimulatedBy.foldlM ⟨rfl, h.heads level⟩ (fun i state state' mirrors => ?_)
    rw [InducedSorting.lInduceStep, lInduceStep, mirrors.1]
    exact SimulatedBy.bind_same (fun e _ => .ite (.ite (.bind_same (fun _ _ =>
      .ite (putHead_simulated level.lo_le mirrors _) (.pure mirrors))) (.pure mirrors))
      (.pure mirrors))
  rintro after run
  obtain ⟨after', run', same, -⟩ := pass after run
  exact ⟨after'.1, by rw [lInduceSort, run', ok_bind, pure_eq_ok], same⟩

theorem sInduceSort_simulated (level : IsLevel s lo size) (h : Bounded s m) :
    SimulatedBy (fun after idc => idc = after.1)
      (InducedSorting.sInduceSort guessedSA s sTypes (tailsOf s lo size) lo)
      (sInduceSort guessedSA s sTypes m) := by
  have pass : SimulatedBy (Mirrors s lo Prod.snd)
      (InducedSorting.sInduceSort guessedSA s sTypes (tailsOf s lo size) lo)
      (forSlotsDown guessedSA.length (sInduceStep s sTypes) (guessedSA, m)) := by
    refine SimulatedBy.foldlM ⟨rfl, h.tails level⟩ (fun i state state' mirrors => ?_)
    rw [InducedSorting.sInduceStep, sInduceStep, mirrors.1]
    exact SimulatedBy.bind_same (fun e _ => .ite (.ite (.bind_same (fun _ _ =>
      .ite (putTail_simulated level.lo_le mirrors _) (.pure mirrors))) (.pure mirrors))
      (.pure mirrors))
  rintro after run
  obtain ⟨after', run', same, -⟩ := pass after run
  exact ⟨after'.1, by rw [sInduceSort, run', ok_bind, pure_eq_ok], same⟩

theorem lmsSort_simulated (level : IsLevel s lo size) (h : Bounded s m)
    (summarySA summIdc : List Nat) : SimulatedBy Eq
      (InducedSorting.lmsSort s (tailsOf s lo size) sTypes summarySA summIdc lo)
      (lmsSort s m sTypes summarySA summIdc) := by
  refine SimulatedBy.bind_same (fun start _ => ?_)
  have placed : SimulatedBy (Mirrors s lo Prod.snd)
      (forDown start 1 (fun i state => do
        let idx ← load summIdc (← load summarySA i)
        InducedSorting.putTail s lo idx state)
        (List.replicate (s.length + 1) invalid, tailsOf s lo size))
      (forDown start 1 (fun i state => do
        let idx ← load summIdc (← load summarySA i)
        putTail s idx state) (List.replicate (s.length + 1) invalid, m)) :=
    SimulatedBy.foldlM ⟨rfl, h.tails level⟩ (fun i _ _ mirrors => .bind_same (fun rank _ =>
      .bind_same (fun idx _ => putTail_simulated level.lo_le mirrors idx)))
  refine SimulatedBy.bind placed (fun state state' mirrors => ?_)
  rw [mirrors.1]
  exact fun idc run => ⟨idc, run, rfl⟩

/-- The guess and the map from every LMS position to the next one. -/
theorem guessSortLMS_simulated (level : IsLevel s lo size) (h : Bounded s m) :
    Ensures (InducedSorting.guessSortLMS s (typesOf s) (tailsOf s lo size) lo)
      (fun guessedSA => ∃ allLms, guessSortLMS s (typesOf s) m = .ok (guessedSA, allLms) ∧
        ∀ q, q ≤ s.length →
          allLms.lookup q = if IsLMS s q then some (nextLMS s q) else none) := by
  have pos := level.pos
  have fits : s.length < invalid := level.fits
  intro guessedSA run
  obtain ⟨placed, loop, hstore⟩ := bind_eq_ok.mp run
  let rel (i : Nat) (placed : List Nat × List Nat) (state : Guessing β) : Prop :=
    Mirrors s lo Prod.snd placed state.placed ∧
      Alternative.Recorded s i state.lmsBef state.allLms
  have first : ¬ IsLMS s 0 := fun h => Nat.lt_irrefl 0 h.1
  have init : rel 1 (List.replicate (s.length + 1) invalid, tailsOf s lo size)
      { placed := (List.replicate (s.length + 1) invalid, m), allLms := [], lmsBef := invalid } :=
    ⟨⟨rfl, h.tails level⟩, .none_yet (lmsFrom_of_not_isLMS pos first)⟩
  have step : ∀ i placed state, 1 ≤ i → i < s.length → rel i placed state → Ensures (do
      if ← InducedSorting.idxIsLMSC i (typesOf s) then InducedSorting.putTail s lo i placed
      else return placed) (fun placed' => ∃ state',
        guessStep s (typesOf s) i state = .ok state' ∧ rel (i + 1) placed' state') := by
    rintro i placed ⟨state, allLms, bef⟩ hpos hi ⟨mirrors, recorded⟩
    have test : Alternative.idxIsLMSC i (typesOf s) = .ok (decide (IsLMS s i)) := by
      rw [Alternative.idxIsLMSC, if_pos (Nat.ne_of_gt hpos), InducedSorting.idxIsLMSC_eq hpos hi]
    rw [InducedSorting.idxIsLMSC_eq hpos hi, ok_bind, guessStep, test, ok_bind]
    by_cases hlms : IsLMS s i
    · rw [if_pos (decide_eq_true hlms), if_pos (decide_eq_true hlms)]
      refine (putTail_simulated level.lo_le mirrors i).mono ?_
      rintro placed' ⟨state', run, mirrors'⟩
      exact ⟨_, by rw [run, ok_bind, pure_eq_ok], mirrors', recorded.found fits hlms⟩
    · have no : ¬ decide (IsLMS s i) = true := fun h => hlms (of_decide_eq_true h)
      rw [if_neg no, if_neg no]
      exact Ensures.pure ⟨_, rfl, mirrors, recorded.skip hi hlms⟩
  obtain ⟨⟨state, allLms, bef⟩, loop', mirrors, recorded⟩ := forUp_sim rel pos init step placed loop
  refine ⟨_, ?_, fun q hq => recorded.finish fits hq⟩
  have words : s.length < 2 ^ idxBits := Nat.lt_of_lt_of_le fits (Nat.sub_le _ _)
  have array : state.1 = placed.1 := mirrors.1
  rw [guessSortLMS, forUp_first pos words, guessStep, Alternative.idxIsLMSC,
    if_neg (not_not_intro rfl), pure_eq_ok, ok_bind, if_neg Bool.false_ne_true, pure_eq_ok, ok_bind,
    loop', ok_bind]
  simp only [array]
  rw [hstore, ok_bind, pure_eq_ok]

theorem toStack_simulated (level : IsLevel s lo size) {headsTailsFO : List Nat → Run β}
    (made : headsTailsFO s = .ok m) (h : Bounded s m) :
    Ensures (InducedSorting.toStack s size lo) (fun pushed => toStack s headsTailsFO = .ok
      { element := ⟨s, pushed.element.sTypes, pushed.element.summIdc, m⟩
        summary := pushed.summary, summS := pushed.summS, summAlphS := pushed.summAlphS }) := by
  intro pushed run
  simp only [InducedSorting.toStack, InducedSorting.guess, InducedSorting.makeSTypes_eq level.pos,
    sub_of_le level.lo_lt_size.le, InducedSorting.makeCounts_eq level,
    InducedSorting.makeBuckets_tails level, InducedSorting.makeBuckets_heads level, ok_bind,
    bind_eq_ok, pure_eq_ok] at run
  obtain ⟨g, ⟨guessed, hguessed, afterL, hafterL, afterS, hafterS, hg⟩, summarized, hsummarized,
    hpushed⟩ := run
  obtain rfl := Except.ok.inj hg
  obtain rfl := Except.ok.inj hpushed
  obtain ⟨allLms, hguessed', lookup⟩ := guessSortLMS_simulated level h guessed hguessed
  obtain ⟨_, hafterL', rfl⟩ := lInduceSort_simulated level h afterL hafterL
  obtain ⟨_, hafterS', rfl⟩ := sInduceSort_simulated level h afterS hafterS
  obtain ⟨hsummarized', -⟩ :=
    Alternative.summarizeSA_refines level.pos lookup summarized hsummarized
  simp only [toStack, InducedSorting.makeSTypes_eq level.pos, made, hguessed', hafterL', hafterS',
    hsummarized', ok_bind, pure_eq_ok]

theorem fromStack_simulated (level : IsLevel s lo size) (h : Bounded s m) (summIdc : List Nat)
    (summarySA : List Nat) : SimulatedBy Eq
      (InducedSorting.fromStack ⟨s, sTypes, summIdc, countsOf s lo size⟩ summarySA lo)
      (fromStack ⟨s, sTypes, summIdc, m⟩ summarySA) := by
  rw [InducedSorting.fromStack, InducedSorting.makeBuckets_tails level, ok_bind,
    InducedSorting.makeBuckets_heads level, ok_bind]
  refine SimulatedBy.bind (lmsSort_simulated level h summarySA summIdc) ?_
  rintro idc _ rfl
  refine SimulatedBy.bind (lInduceSort_simulated level h) ?_
  rintro afterL _ rfl
  intro sa run
  obtain ⟨afterS, hafterS, hsa⟩ := bind_eq_ok.mp run
  obtain rfl := Except.ok.inj hsa
  obtain ⟨_, hafterS', rfl⟩ := sInduceSort_simulated level h afterS hafterS
  exact ⟨_, hafterS', rfl⟩

end Pointers

/-- An entry of either stack for the same level. -/
inductive SameLevel : InducedSorting.StackElement → StackElement (List (Nat × Nat)) → Prop
  | intro {s : List Nat} {size : Nat} {sTypes : List Bool} {summIdc : List Nat}
      {m : List (Nat × Nat)} : IsLevel s 0 size → Bounded s m →
      SameLevel ⟨s, sTypes, summIdc, countsOf s 0 size⟩ ⟨s, sTypes, summIdc, m⟩

theorem populate_simulated {s : List Nat} {lo size top : Nat} {f : Nat → Nat}
    (level : IsLevel s lo size) (named : Named s f top) (fuel : Nat)
    {stack : List InducedSorting.StackElement} {stack' : List (StackElement (List (Nat × Nat)))}
    (same : List.Forall₂ SameLevel stack stack') :
    SimulatedBy (fun populated populated' =>
        List.Forall₂ SameLevel populated.1 populated'.1 ∧ populated'.2 = populated.2)
      (InducedSorting.populate fuel stack ((lmsIdc s).map f) ((lmsIdc s).map f).length (top + 1))
      (populate fuel stack' ((lmsIdc s).map f) ((lmsIdc s).map f).length (top + 1)) := by
  induction fuel generalizing s lo size top f stack stack' with
  | zero =>
      rw [InducedSorting.populate, populate]
      refine SimulatedBy.ite (SimulatedBy.pure ⟨same, rfl⟩) ?_
      rintro _ ⟨⟩
  | succ fuel ih =>
      rw [InducedSorting.populate, populate]
      refine SimulatedBy.ite (SimulatedBy.pure ⟨same, rfl⟩) ?_
      have level' := named.isLevel level
      have words : ∀ c ∈ (lmsIdc s).map f, c + 1 < 2 ^ idxBits := by
        intro c hc
        have small := named.mem_summary_iff.mp hc
        have := named.top_le
        have := level.fits
        simp only [idxBits] at *
        omega
      obtain ⟨m, made, bounded⟩ := makeHeadsTailsSecond_bounded level'.fits words
      obtain ⟨f', top', pushed, named'⟩ := InducedSorting.toStack_eq level'
      rw [pushed, toStack_simulated level' made bounded _ pushed, ok_bind, ok_bind]
      exact ih level' named' (List.Forall₂.cons (.intro level' bounded) same)

theorem unwind_simulated {stack : List InducedSorting.StackElement}
    {stack' : List (StackElement (List (Nat × Nat)))} (same : List.Forall₂ SameLevel stack stack')
    (summary : List Nat) :
    SimulatedBy Eq (InducedSorting.unwind stack summary) (unwind stack' summary) := by
  induction same generalizing summary with
  | nil => exact SimulatedBy.pure rfl
  | cons top _ ih =>
      obtain ⟨level, bounded⟩ := top
      refine SimulatedBy.bind (fromStack_simulated level bounded _ summary) ?_
      rintro sa _ rfl
      exact ih sa

theorem run_simulated {data : List UInt8} {lower upper : Nat}
    (level : IsLevel (data.map UInt8.toNat) lower (upper + 1)) (byte : upper + 1 < 2 ^ idxBits)
    (fuel : Nat) : SimulatedBy Eq (InducedSorting.run fuel lower data upper) (run fuel data) := by
  obtain ⟨m, made, bounded⟩ := makeHeadsTailsFirst_bounded level.fits
  obtain ⟨f, top, pushed, named⟩ := InducedSorting.toStack_eq level
  rw [InducedSorting.run, inc_of_lt byte, ok_bind, pushed, ok_bind, run,
    toStack_simulated level made bounded _ pushed, ok_bind]
  refine SimulatedBy.bind (populate_simulated level named fuel List.Forall₂.nil) ?_
  rintro populated populated' ⟨same, summary⟩
  rw [summary]
  refine SimulatedBy.bind_same (fun summarySA _ =>
    SimulatedBy.bind (unwind_simulated same summarySA) ?_)
  rintro sa _ rfl
  exact fromStack_simulated level bounded _ sa

/-- Without the smallest and the largest character the same array is returned. -/
theorem run_agrees {data : List UInt8} {min max : UInt8} {fuel : Nat} (pos : 0 < data.length)
    (fits : data.length < 2 ^ 32 - 1) (lower : ∀ c ∈ data, min ≤ c) (upper : ∀ c ∈ data, c ≤ max)
    (enough : data.length ≤ fuel) : ∃ SA,
    InducedSorting.run fuel min.toNat data max.toNat = .ok SA ∧ run fuel data = .ok SA ∧
      IsSuffixArray data SA := by
  have level : IsLevel (data.map UInt8.toNat) min.toNat (max.toNat + 1) :=
    InducedSorting.isLevel_bytes pos fits
      (fun c hc => UInt8.le_iff_toNat_le.mp (lower c hc))
      (fun c hc => UInt8.le_iff_toNat_le.mp (upper c hc))
  have byte : max.toNat + 1 < 2 ^ idxBits :=
    Nat.lt_of_le_of_lt (Nat.succ_le_of_lt max.toNat_lt) (by decide)
  obtain ⟨SA, returns, hSA⟩ := InducedSorting.run_eq level byte enough
  obtain ⟨_, returns', rfl⟩ := run_simulated level byte fuel SA returns
  exact ⟨SA, returns, returns', (isSuffixArray_map_iff toNat_strictMono).mp hSA⟩

theorem run_agrees_banana : ∃ SA,
    InducedSorting.run 6 97 [98, 97, 110, 97, 110, 97] 110 = .ok SA ∧
      run 6 [98, 97, 110, 97, 110, 97] = .ok SA ∧
      IsSuffixArray ([98, 97, 110, 97, 110, 97] : List UInt8) SA :=
  @run_agrees [98, 97, 110, 97, 110, 97] 97 110 6 (by decide) (by decide) (by simp) (by simp)
    (by decide)

end SuffixArray.MapBuckets
