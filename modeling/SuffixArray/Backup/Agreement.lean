import SuffixArray.Alternative.Agreement
import SuffixArray.Backup
import SuffixArray.Bytes
import SuffixArray.InducedSorting.Reached

/-!
# Where `all_lms` is filled

On a level with an LMS position both headers compute the same table, one from the left and one
from the right. On a level without any this one stores through `lms_bef` wherever that happens
to point. At the length of the string it does no harm, and beyond it is outside the table.
-/

namespace SuffixArray.Backup

open Checked SuffixOrder
open InducedSorting (GuessSorted IsLevel Naming Pushed StackElement allLmsOf idxBits invalid
  typesOf)

/-- Where a level is processed as in the other header. -/
def Sound (unset : List Nat → Nat) (s : List Nat) : Prop :=
  (∃ i, IsLMS s i) ∨ unset s = s.length

section Table

variable {s : List Nat}

/-- `all_lms` when the positions below `b` have been entered. -/
def enteredBelow (s : List Nat) (b : Nat) : List Nat :=
  (List.range (s.length + 1)).map (fun q => if IsLMS s q ∧ q < b then nextLMS s q else 0)

theorem enteredBelow_length (s : List Nat) : enteredBelow s s.length = allLmsOf s :=
  InducedSorting.table_congr (fun q _ =>
    if_congr (and_iff_left_of_imp (fun h : IsLMS s q => h.2.1)) rfl rfl)

theorem length_allLmsOf (s : List Nat) : (allLmsOf s).length = s.length + 1 := by
  rw [allLmsOf, List.length_map, List.length_range]

theorem enteredBelow_of_none {b : Nat} (none : ∀ q < b, ¬ IsLMS s q) :
    enteredBelow s b = List.replicate (s.length + 1) 0 := by
  rw [InducedSorting.replicate_eq_table]
  exact InducedSorting.table_congr (fun q _ => if_neg (fun h => none q h.2 h.1))

/-- The next LMS position is entered for the last one. -/
theorem store_enteredBelow {b : Nat} (lms : IsLMS s b) :
    store (enteredBelow s b) b (nextLMS s b) = .ok (enteredBelow s (nextLMS s b)) := by
  have inside := lms.2.1
  rw [enteredBelow, InducedSorting.store_table _ (by omega)]
  refine congrArg Except.ok (InducedSorting.table_congr (fun q _ => ?_))
  by_cases same : q = b
  · subst same
    rw [if_pos rfl, if_pos ⟨lms, (nextLMS_bounds inside).1⟩]
  · rw [if_neg same]
    refine if_congr (and_congr_right (fun hq => ?_)) rfl rfl
    rw [Alternative.Recorded.lt_iff lms hq, or_iff_right same]

end Table

section Guess

variable {s : List Nat} {sub i : Nat} {placed : List Nat × List Nat} {state : Guessing}

/-- In front of the iteration of the second loop at `i`. -/
structure Recording (s : List Nat) (i : Nat) (state : Guessing) : Prop where
  lms : IsLMS s state.lmsBef
  last : nextLMS s state.lmsBef = lmsFrom s i
  allLms : state.allLms = enteredBelow s state.lmsBef

/-- One iteration of the loop of the other header. -/
abbrev placeStep (s : List Nat) (sub i : Nat) (placed : List Nat × List Nat) :
    Run (List Nat × List Nat) := do
  if ← InducedSorting.idxIsLMSC i (typesOf s) then InducedSorting.putTail s sub i placed
  else return placed

theorem guessStep_simulated (hpos : 1 ≤ i) (hi : i < s.length) (h : Recording s i state) :
    Ensures (placeStep s sub i state.placed) (fun placed' => ∃ state',
      guessStep s (typesOf s) sub i state = .ok state' ∧ state'.placed = placed' ∧
        Recording s (i + 1) state') := by
  rw [placeStep, guessStep, InducedSorting.idxIsLMSC_eq hpos hi, ok_bind, ok_bind]
  by_cases hlms : IsLMS s i
  · rw [if_pos (decide_eq_true hlms), if_pos (decide_eq_true hlms)]
    intro placed' run
    have next : nextLMS s state.lmsBef = i := h.last.trans (lmsFrom_of_isLMS hlms)
    have entered := store_enteredBelow h.lms
    rw [next, ← h.allLms] at entered
    exact ⟨_, by rw [run, ok_bind, entered, ok_bind, pure_eq_ok], rfl, hlms, rfl, rfl⟩
  · have no : ¬ decide (IsLMS s i) = true := fun h => hlms (of_decide_eq_true h)
    rw [if_neg no, if_neg no]
    exact Ensures.pure ⟨_, rfl, rfl, h.lms, h.last.trans (lmsFrom_of_not_isLMS hi hlms), h.allLms⟩

theorem secondLoop_simulated (hpos : 1 ≤ i) (hi : i ≤ s.length) (h : Recording s i state) :
    Ensures (forUp idxBits i s.length (placeStep s sub) state.placed) (fun placed' => ∃ state',
      forUp idxBits i s.length (guessStep s (typesOf s) sub) state = .ok state' ∧
        state'.placed = placed' ∧ Recording s s.length state') := by
  refine forUp_sim (fun i placed state => state.placed = placed ∧ Recording s i state) hi
    ⟨rfl, h⟩ ?_
  rintro k _ state lower upper ⟨rfl, h⟩
  exact guessStep_simulated (hpos.trans lower) upper h

/-- The two loops behind the positions below `i`, none of which is an LMS position. -/
theorem loops_simulated (unset : Nat) {rest : Nat} (hpos : 1 ≤ i) (whole : i + rest = s.length)
    (fits : s.length < 2 ^ idxBits) (none : ∀ q < i, ¬ IsLMS s q) :
    Ensures (forUp idxBits i s.length (placeStep s sub) placed) (fun placed' => ∃ first,
      firstLms s (typesOf s) sub rest { placed := placed, lmsBef := unset, i := i } = .ok first ∧
      ((∃ q, IsLMS s q) → first.i < s.length ∧ ∃ state,
        forUp idxBits (first.i + 1) s.length (guessStep s (typesOf s) sub)
          ⟨first.placed, List.replicate (s.length + 1) 0, first.lmsBef⟩ = .ok state ∧
          state.placed = placed' ∧ Recording s s.length state) ∧
      ((¬ ∃ q, IsLMS s q) → first = { placed := placed', lmsBef := unset, i := s.length })) := by
  induction rest generalizing i with
  | zero =>
      obtain rfl : i = s.length := whole
      rw [forUp, Nat.sub_self]
      refine Ensures.pure ⟨_, rfl, ?_, fun _ => rfl⟩
      rintro ⟨q, hq⟩
      exact absurd hq (none q hq.2.1)
  | succ rest ih =>
      have hi : i < s.length := by omega
      rw [forUp_first hi fits, firstLms, InducedSorting.idxIsLMSC_eq hpos hi, ok_bind]
      simp only [placeStep, InducedSorting.idxIsLMSC_eq hpos hi, ok_bind]
      by_cases hlms : IsLMS s i
      · simp only [if_pos (decide_eq_true hlms)]
        refine Ensures.bind_any (fun placed₁ put => ?_)
        have recording : Recording s (i + 1) ⟨placed₁, List.replicate (s.length + 1) 0, i⟩ :=
          ⟨hlms, rfl, (enteredBelow_of_none none).symm⟩
        refine (secondLoop_simulated (by omega) hi recording).mono ?_
        rintro placed' ⟨state, run, same, h⟩
        refine ⟨_, by rw [put, ok_bind, pure_eq_ok], fun _ => ⟨hi, state, run, same, h⟩, ?_⟩
        exact fun absent => absurd ⟨i, hlms⟩ absent
      · have no : ¬ decide (IsLMS s i) = true := fun h => hlms (of_decide_eq_true h)
        simp only [if_neg no, pure_eq_ok, ok_bind, inc_of_lt (show i + 1 < 2 ^ idxBits by omega)]
        refine ih (by omega) (by omega) (fun q hq => ?_)
        obtain rfl | hlt := Nat.eq_or_lt_of_le (Nat.le_of_lt_succ hq)
        · exact hlms
        · exact none q hlt

variable (unset : Nat) {tails : List Nat}

/-- Both loops, on the array before its first slot is filled. -/
theorem guessLoops_simulated (pos : 0 < s.length) (fits : s.length < invalid) :
    Ensures (InducedSorting.guessSortLMS s (typesOf s) tails sub) (fun guessedSA =>
      ∃ looped, guessLoops unset s (typesOf s) tails sub = .ok looped ∧
        store looped.1.placed.1 0 s.length = .ok guessedSA ∧
        ((∃ q, IsLMS s q) → looped.2 = s.length ∧ Recording s s.length looped.1) ∧
        ((¬ ∃ q, IsLMS s q) → looped.2 = s.length + 1 ∧ looped.1.lmsBef = unset ∧
          looped.1.allLms = List.replicate (s.length + 1) 0)) := by
  intro guessedSA run
  obtain ⟨placed, loop, hstore⟩ := bind_eq_ok.mp run
  have words : s.length + 1 < 2 ^ idxBits := by
    simp only [invalid, idxBits] at *
    omega
  have none : ∀ q < 1, ¬ IsLMS s q := fun q hq hlms => absurd hlms.1 (by omega)
  obtain ⟨first, hfirst, found, absent⟩ := loops_simulated unset le_rfl
    (show 1 + (s.length - 1) = s.length by omega) (by omega) none placed loop
  rw [guessLoops, hfirst, ok_bind]
  by_cases lms : ∃ q, IsLMS s q
  · obtain ⟨hi, state, hstate, rfl, recording⟩ := found lms
    refine ⟨(state, s.length), ?_, hstore, fun _ => ⟨rfl, recording⟩, fun h => absurd lms h⟩
    rw [inc_of_lt (by omega), ok_bind, hstate, ok_bind, Nat.max_eq_right hi, pure_eq_ok]
  · obtain rfl := absent lms
    refine ⟨(⟨placed, List.replicate (s.length + 1) 0, unset⟩, s.length + 1), ?_, hstore,
      fun h => absurd h lms, fun _ => ⟨rfl, rfl, rfl⟩⟩
    rw [inc_of_lt words, ok_bind, forUp, Nat.sub_eq_zero_of_le (Nat.le_succ _),
      Nat.max_eq_left (Nat.le_succ _)]
    rfl

theorem guessSortLMS_found (pos : 0 < s.length) (fits : s.length < invalid)
    (lms : ∃ q, IsLMS s q) :
    Ensures (InducedSorting.guessSortLMS s (typesOf s) tails sub) (fun guessedSA =>
      guessSortLMS unset s (typesOf s) tails sub = .ok (guessedSA, allLmsOf s)) := by
  intro guessedSA run
  obtain ⟨looped, loops, hstore, found, -⟩ :=
    guessLoops_simulated unset pos fits guessedSA run
  obtain ⟨stop, recording⟩ := found lms
  have entered := store_enteredBelow recording.lms
  rw [recording.last.trans (lmsFrom_of_le (Nat.le_refl _)), ← recording.allLms,
    enteredBelow_length] at entered
  rw [guessSortLMS, loops, ok_bind, stop, entered, ok_bind, hstore, ok_bind, pure_eq_ok]

theorem guessSortLMS_absent (pos : 0 < s.length) (fits : s.length < invalid)
    (lms : ¬ ∃ q, IsLMS s q) :
    Ensures (InducedSorting.guessSortLMS s (typesOf s) tails sub) (fun guessedSA =>
      guessSortLMS unset s (typesOf s) tails sub = do
        let allLms ← store (allLmsOf s) unset (s.length + 1)
        return (guessedSA, allLms)) := by
  intro guessedSA run
  obtain ⟨looped, loops, hstore, -, absent⟩ :=
    guessLoops_simulated unset pos fits guessedSA run
  obtain ⟨stop, bef, table⟩ := absent lms
  have empty : List.replicate (s.length + 1) 0 = allLmsOf s := by
    rw [← enteredBelow_length, enteredBelow_of_none (fun q _ h => lms ⟨q, h⟩)]
  simp only [guessSortLMS, loops, ok_bind, stop, bef, table, empty, hstore]

end Guess

section Level

variable {s g allLms : List Nat} {lo size : Nat}

/-- A name depends on the table at the position in question only. -/
theorem nameStep_congr {i : Nat} {table table' : List Nat}
    (same : ∀ q, g[i]? = some q → table[q]? = table'[q]?) (state : Naming) :
    InducedSorting.nameStep s g table i state = InducedSorting.nameStep s g table' i state := by
  rw [InducedSorting.nameStep, InducedSorting.nameStep]
  cases hq : load g i with
  | error e => rfl
  | ok q =>
      have entry : load table q = load table' q := by
        rw [load, load, same q (load_eq_ok.mp hq)]
      rw [ok_bind, ok_bind, entry]

/-- The included header, with its table made. -/
theorem summarizeSA_eq (pos : 0 < s.length) (g : List Nat) :
    InducedSorting.summarizeSA s g (typesOf s) = summarizeSA s g (allLmsOf s) := by
  simp only [InducedSorting.summarizeSA, summarizeSA, InducedSorting.makeAllLms_eq pos, ok_bind]

/-- The entry of the empty suffix is never asked for. -/
theorem summarizeSA_set_length (sorted : GuessSorted s g) (x : Nat) :
    Ensures (summarizeSA s g (allLmsOf s))
      (fun summarized => summarizeSA s g ((allLmsOf s).set s.length x) = .ok summarized) := by
  intro summarized run
  obtain ⟨first, hfirst, run⟩ := bind_eq_ok.mp run
  obtain ⟨lms, hlms, run⟩ := bind_eq_ok.mp run
  obtain ⟨named, loop, run⟩ := bind_eq_ok.mp run
  have nodup := sorted.perm.nodup_iff.mpr List.nodup_range
  have length : g.length = s.length + 1 := by rw [sorted.perm.length_eq, List.length_range]
  have step : ∀ i state state', 1 ≤ i → i < g.length → state = state' →
      Ensures (InducedSorting.nameStep s g (allLmsOf s) i state) (fun named => ∃ named',
        InducedSorting.nameStep s g ((allLmsOf s).set s.length x) i state' = .ok named' ∧
          named = named') := by
    rintro i state _ lower upper rfl named run
    refine ⟨named, ?_, rfl⟩
    rw [← run]
    refine nameStep_congr (fun q hq => List.getElem?_set_ne ?_) state
    rintro rfl
    have := (List.getElem?_inj upper nodup).mp (hq.trans sorted.head.symm)
    omega
  obtain ⟨_, loop', rfl⟩ :=
    forUp_sim (fun _ => Eq) (show 1 ≤ g.length by omega) rfl step named loop
  rw [summarizeSA, hfirst, ok_bind, hlms, ok_bind, loop', ok_bind]
  exact run

/-- What both headers have computed of a level when they guess and when they summarize. -/
theorem guess_parts (level : IsLevel s lo size) : ∃ guessed afterL afterS,
    InducedSorting.guessSortLMS s (typesOf s) (InducedSorting.tailsOf s lo size) lo =
      .ok guessed ∧
    InducedSorting.lInduceSort guessed s (typesOf s) (InducedSorting.headsOf s lo size) lo =
      .ok afterL ∧
    InducedSorting.sInduceSort afterL.1 s (typesOf s) (InducedSorting.tailsOf s lo size) lo =
      .ok afterS ∧ GuessSorted s afterS.1 := by
  obtain ⟨_, run, -, -, sorted⟩ := InducedSorting.guess_eq level
  simp only [InducedSorting.guess, InducedSorting.makeSTypes_eq level.pos,
    sub_of_le level.lo_lt_size.le, InducedSorting.makeCounts_eq level,
    InducedSorting.makeBuckets_tails level, InducedSorting.makeBuckets_heads level, ok_bind,
    bind_eq_ok, pure_eq_ok] at run
  obtain ⟨guessed, hguessed, afterL, hafterL, afterS, hafterS, hg⟩ := run
  obtain rfl := Except.ok.inj hg
  exact ⟨guessed, afterL, afterS, hguessed, hafterL, hafterS, sorted⟩

theorem toStack_sound {unset : List Nat → Nat} (level : IsLevel s lo size)
    (sound : Sound unset s) : toStack unset s size lo = InducedSorting.toStack s size lo := by
  have pos := level.pos
  have fits : s.length < invalid := level.fits
  obtain ⟨guessed, afterL, afterS, hguessed, hafterL, hafterS, sorted⟩ := guess_parts level
  obtain ⟨f, top, summarized, -⟩ := InducedSorting.summarizeSA_eq level sorted
  have tableLength := length_allLmsOf s
  have table : ∃ allLms, guessSortLMS (unset s) s (typesOf s) (InducedSorting.tailsOf s lo size)
      lo = .ok (guessed, allLms) ∧
      summarizeSA s afterS.1 allLms = InducedSorting.summarizeSA s afterS.1 (typesOf s) := by
    by_cases lms : ∃ q, IsLMS s q
    · exact ⟨_, guessSortLMS_found (unset s) pos fits lms guessed hguessed,
        (summarizeSA_eq pos _).symm⟩
    · have run := guessSortLMS_absent (unset s) pos fits lms guessed hguessed
      have entered : store (allLmsOf s) (unset s) (s.length + 1) =
          .ok ((allLmsOf s).set s.length (s.length + 1)) := by
        rw [sound.resolve_left lms, store_of_lt (by omega)]
      rw [entered, ok_bind, pure_eq_ok] at run
      rw [summarizeSA_eq pos] at summarized ⊢
      exact ⟨_, run, (summarizeSA_set_length sorted _ _ summarized).trans summarized.symm⟩
  obtain ⟨allLms, guessedBoth, same⟩ := table
  simp only [toStack, InducedSorting.toStack, InducedSorting.guess,
    InducedSorting.makeSTypes_eq pos, sub_of_le level.lo_lt_size.le,
    InducedSorting.makeCounts_eq level, InducedSorting.makeBuckets_tails level,
    InducedSorting.makeBuckets_heads level, hguessed, guessedBoth, hafterL, hafterS, same,
    ok_bind, pure_eq_ok]

/-- Without an LMS position `lms_bef` may point outside the table. -/
theorem toStack_overrun {unset : List Nat → Nat} (level : IsLevel s lo size)
    (lms : ¬ ∃ i, IsLMS s i) (beyond : s.length < unset s) :
    toStack unset s size lo = .error .outOfRange := by
  have pos := level.pos
  obtain ⟨guessed, afterL, afterS, hguessed, -, -, -⟩ := guess_parts level
  have tableLength := length_allLmsOf s
  have run := guessSortLMS_absent (unset s) pos level.fits lms guessed hguessed
  rw [store, if_neg (by omega), error_bind] at run
  simp only [toStack, InducedSorting.makeSTypes_eq pos, sub_of_le level.lo_lt_size.le,
    InducedSorting.makeCounts_eq level, InducedSorting.makeBuckets_tails level, run, ok_bind,
    error_bind]

end Level

section Run

open InducedSorting (Loop Reached)

variable {unset : List Nat → Nat} {data : List UInt8} {min max : Nat} {loop : Loop}

/-- The strings of the levels of a run. -/
inductive Processed (data : List UInt8) (min max : Nat) : List Nat → Prop
  | first : Processed data min max (data.map UInt8.toNat)
  | next {loop : Loop} : Reached data min max loop → loop.summS ≠ loop.summAlphS →
      Processed data min max loop.newAlphCont

/-- The loop, from its variables at the test. -/
def goOn (unset : List Nat → Nat) (fuel : Nat) (loop : Loop) :
    Run (List StackElement × List Nat) :=
  populate unset fuel loop.stack loop.newAlphCont loop.summS loop.summAlphS

theorem goOn_exit (full : loop.summS = loop.summAlphS) (fuel : Nat) :
    goOn unset fuel loop = .ok (loop.stack, loop.newAlphCont) := by
  cases fuel <;> rw [goOn, populate, if_pos full, pure_eq_ok]

theorem goOn_body (more : loop.summS ≠ loop.summAlphS) (fuel : Nat) :
    goOn unset (fuel + 1) loop = (do
      let pushed ← toStack unset loop.newAlphCont loop.summAlphS 0
      goOn unset fuel (pushed.loop (pushed.element :: loop.stack))) := by
  rw [goOn, populate, if_neg more]
  rfl

/-- An `lms_bef` that points outside the table of every level. -/
def beyond (s : List Nat) : Nat := s.length + 1

variable (level : IsLevel (data.map UInt8.toNat) min (max + 1))
include level

theorem goOn_sound (sound : ∀ s, Processed data min max s → Sound unset s)
    (h : Reached data min max loop) (fuel : Nat) : goOn unset fuel loop = loop.populate fuel := by
  induction fuel generalizing loop with
  | zero => rw [goOn, populate, Loop.populate, InducedSorting.populate]
  | succ fuel ih =>
      by_cases full : loop.summS = loop.summAlphS
      · rw [goOn_exit full, Loop.populate_exit full]
      · have descent := h.descent level
        obtain ⟨_, pushed, run, _⟩ := descent.body full
        rw [goOn_body full, toStack_sound (descent.entered full).1 (sound _ (.next h full)), run,
          ok_bind, Loop.populate_body full run]
        exact ih (h.next full run)

/-- A loop that ends whatever `lms_bef` holds has processed a level with an LMS position. -/
theorem exists_isLMS_of_goOn {fuel : Nat} {populated : List StackElement × List Nat}
    (h : Reached data min max loop) (more : loop.summS ≠ loop.summAlphS)
    (run : goOn beyond fuel loop = .ok populated) : ∃ i, IsLMS loop.newAlphCont i := by
  by_contra lms
  cases fuel with
  | zero =>
      rw [goOn, populate, if_neg more] at run
      exact nomatch run
  | succ fuel =>
      rw [goOn_body more, toStack_overrun ((h.descent level).entered more).1 lms
        (Nat.lt_succ_self _), error_bind] at run
      exact nomatch run

/-- A loop that ends has come by everything that the other header reaches. -/
theorem exists_goOn {fuel : Nat} {fse : Pushed} {populated : List StackElement × List Nat}
    (pushed : InducedSorting.toStack (data.map UInt8.toNat) (max + 1) min = .ok fse)
    (run : goOn beyond fuel (fse.loop []) = .ok populated) (h : Reached data min max loop) :
    ∃ fuel, goOn beyond fuel loop = .ok populated := by
  induction h with
  | first pushed' =>
      obtain rfl := Except.ok.inj (pushed.symm.trans pushed')
      exact ⟨fuel, run⟩
  | next h more pushed' ih =>
      obtain ⟨fuel, run⟩ := ih
      have lms := exists_isLMS_of_goOn level h more run
      cases fuel with
      | zero =>
          rw [goOn, populate, if_neg more] at run
          exact nomatch run
      | succ fuel =>
          rw [goOn_body more, toStack_sound ((h.descent level).entered more).1 (.inl lms), pushed',
            ok_bind] at run
          exact ⟨fuel, run⟩

end Run

/-- This header returns an array whatever `lms_bef` holds, and then the suffix array, if and only
if every level has an LMS position. -/
theorem run_eq_ok_iff {data : List UInt8} {min max : UInt8} {fuel : Nat} (pos : 0 < data.length)
    (fits : data.length < 2 ^ 32 - 1) (lower : ∀ c ∈ data, min ≤ c) (upper : ∀ c ∈ data, c ≤ max)
    (enough : data.length ≤ fuel) (SA : List Nat) :
    (∀ unset, run unset fuel min.toNat data max.toNat = .ok SA) ↔
      IsSuffixArray data SA ∧ ∀ s, Processed data min.toNat max.toNat s → ∃ i, IsLMS s i := by
  have level : IsLevel (data.map UInt8.toNat) min.toNat (max.toNat + 1) :=
    InducedSorting.isLevel_bytes pos fits
      (fun c hc => UInt8.le_iff_toNat_le.mp (lower c hc))
      (fun c hc => UInt8.le_iff_toNat_le.mp (upper c hc))
  have byte : max.toNat + 1 < 2 ^ idxBits :=
    Nat.lt_of_le_of_lt (Nat.succ_le_of_lt max.toNat_lt) (by decide)
  obtain ⟨SA', returns, hSA'⟩ := InducedSorting.run_eq level byte enough
  have hSA := (isSuffixArray_map_iff toNat_strictMono).mp hSA'
  obtain ⟨f, top, pushed, -⟩ := InducedSorting.toStack_eq level
  -- Where every level is sound the two runs are one.
  have same {unset : List Nat → Nat}
      (sound : ∀ s, Processed data min.toNat max.toNat s → Sound unset s) :
      run unset fuel min.toNat data max.toNat = .ok SA' := by
    rw [← returns, run, InducedSorting.run, inc_of_lt byte, ok_bind, ok_bind,
      toStack_sound level (sound _ .first), pushed, ok_bind, ok_bind]
    exact congrArg (· >>= _) (goOn_sound level sound (.first pushed) fuel)
  constructor
  · intro always
    have lms : ∀ s, Processed data min.toNat max.toNat s → ∃ i, IsLMS s i := by
      have returned := always beyond
      rw [run, inc_of_lt byte, ok_bind] at returned
      have first : ∃ i, IsLMS (data.map UInt8.toNat) i := by
        by_contra none
        rw [toStack_overrun level none (Nat.lt_succ_self _), error_bind] at returned
        cases returned
      rw [toStack_sound level (.inl first), pushed, ok_bind] at returned
      obtain ⟨populated, loops, -⟩ := bind_eq_ok.mp returned
      intro s hs
      cases hs with
      | first => exact first
      | next h more =>
          obtain ⟨_, rest⟩ := exists_goOn level pushed loops h
          exact exists_isLMS_of_goOn level h more rest
    obtain rfl := Except.ok.inj ((same fun s hs => .inl (lms s hs)).symm.trans (always beyond))
    exact ⟨hSA, lms⟩
  · rintro ⟨hother, lms⟩ unset
    rw [same fun s hs => .inl (lms s hs), hSA.unique hother]

theorem run_eq_ok_iff_ab : (∀ unset, run unset 2 97 [97, 98] 98 = .ok [2, 0, 1]) ↔
    IsSuffixArray ([97, 98] : List UInt8) [2, 0, 1] ∧
      ∀ s, Processed [97, 98] 97 98 s → ∃ i, IsLMS s i :=
  @run_eq_ok_iff [97, 98] 97 98 2 (by decide) (by decide) (by simp) (by simp) (by decide) [2, 0, 1]

end SuffixArray.Backup
