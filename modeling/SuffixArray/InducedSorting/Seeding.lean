import SuffixArray.InducedSorting.Passes

/-!
# Dropping the LMS positions at the tails

`guessSortLMS` and `lmsSort` both place LMS positions one by one at the tail of
their bucket and decrement the tail. They differ in the sequence only: text order
in the first, descending order of the summary's suffix array in the second. The
invariant follows the set of positions placed so far and asks of each new one
that it may stand left of those already in its bucket.
-/

namespace SuffixArray.InducedSorting

open Checked SuffixOrder

variable {s : List Nat} {lo size : Nat} {R : Nat → Nat → Prop}

/-- The tails have been spent on the positions in `done`. -/
structure Seeding (s : List Nat) (R : Nat → Nat → Prop) (done : Finset Nat)
    (cell : Nat → Option Nat) (next : Nat → Nat) : Prop where
  lms : ∀ q ∈ done, IsLMS s q
  next_add : ∀ c, next c + (done.filter (fun q => chr s q = c)).card = upTo s c
  placed : ∀ q ∈ done, ∃ i, next (chr s q) < i ∧ i ≤ upTo s (chr s q) ∧ cell i = some q
  only : ∀ i e, cell i = some e → e ∈ done ∧ next (chr s e) < i ∧ i ≤ upTo s (chr s e)
  unique : ∀ i i' e, cell i = some e → cell i' = some e → i = i'
  order : ∀ i i' e e', i < i' → cell i = some e → cell i' = some e' → chr s e = chr s e' → R e e'

namespace Seeding

variable {done : Finset Nat} {cell : Nat → Option Nat} {next : Nat → Nat}

theorem start (s : List Nat) (R : Nat → Nat → Prop) :
    Seeding s R ∅ (fun _ => none) (upTo s) where
  lms _ h := absurd h (Finset.notMem_empty _)
  next_add c := by simp
  placed _ h := absurd h (Finset.notMem_empty _)
  only _ _ h := nomatch h
  unique _ _ _ h := nomatch h
  order _ _ _ _ _ h := nomatch h

/-- LMS positions of one character are S-type positions of that character. -/
theorem card_le_sCount {set : Finset Nat} (h : ∀ q ∈ set, IsLMS s q) (c : Nat) :
    (set.filter (fun q => chr s q = c)).card ≤ sCount s c := by
  apply Finset.card_le_card
  intro q hq
  obtain ⟨hmem, hchr⟩ := Finset.mem_filter.mp hq
  have hlms := h q hmem
  exact Finset.mem_filter.mpr ⟨Finset.mem_range.mpr hlms.2.1, hlms.2.2.1, hchr⟩

theorem le_next (h : Seeding s R done cell next) (c : Nat) : below s c + lCount s c ≤ next c := by
  have := card_le_sCount h.lms c
  have := h.next_add c
  have := bucket_total s c
  omega

theorem next_le (h : Seeding s R done cell next) (c : Nat) : next c ≤ upTo s c := by
  have := h.next_add c
  omega

/-- While an LMS position is missing, the tail of its bucket lies in the S-part. -/
theorem room (h : Seeding s R done cell next) {q : Nat} (hq : IsLMS s q) (new : q ∉ done) :
    InSPart s (chr s q) (next (chr s q)) := by
  have lms : ∀ e ∈ insert q done, IsLMS s e := by
    intro e he
    obtain rfl | he := Finset.mem_insert.mp he
    · exact hq
    · exact h.lms e he
  have bound := card_le_sCount lms (chr s q)
  rw [Finset.filter_insert, if_pos rfl, Finset.card_insert_of_notMem (fun hmem =>
    new (Finset.mem_of_mem_filter q hmem))] at bound
  have := h.next_add (chr s q)
  have := bucket_total s (chr s q)
  exact ⟨by omega, h.next_le _⟩

/-- Nothing stands at a tail or left of it. -/
theorem cell_next (h : Seeding s R done cell next) {q : Nat} (hq : IsLMS s q) (new : q ∉ done) :
    cell (next (chr s q)) = none := by
  cases hcell : cell (next (chr s q)) with
  | none => rfl
  | some e =>
      obtain ⟨hmem, hlo, hhi⟩ := h.only _ e hcell
      have := h.le_next (chr s e)
      have same := bucket_unique ⟨by omega, hhi⟩ (h.room hq new).bounds
      rw [same] at hlo
      exact absurd hlo (Nat.lt_irrefl _)

theorem put (h : Seeding s R done cell next) {q : Nat} (hq : IsLMS s q) (new : q ∉ done)
    (left : ∀ e ∈ done, chr s e = chr s q → R q e) :
    Seeding s R (insert q done) (fun i => if i = next (chr s q) then some q else cell i)
      (fun c => if c = chr s q then next (chr s q) - 1 else next c) := by
  have hroom := h.room hq new
  have hempty := h.cell_next hq new
  have frame : ∀ {i e}, cell i = some e → i ≠ next (chr s q) := by
    rintro i e he rfl
    rw [hempty] at he
    contradiction
  have hpos := (bucket_le_length hroom.bounds).1
  have decreased : ∀ c, (if c = chr s q then next (chr s q) - 1 else next c) ≤ next c := by
    intro c
    split
    · next same =>
        rw [same]
        exact Nat.sub_le _ _
    · exact Nat.le_refl _
  refine
    { lms := ?_, next_add := ?_, placed := ?_, only := ?_, unique := ?_, order := ?_ }
  · intro e he
    obtain rfl | he := Finset.mem_insert.mp he
    · exact hq
    · exact h.lms e he
  · intro c
    rw [Finset.filter_insert]
    by_cases same : chr s q = c
    · subst same
      rw [if_pos rfl, if_pos rfl, Finset.card_insert_of_notMem (fun hmem =>
        new (Finset.mem_of_mem_filter q hmem))]
      have := h.next_add (chr s q)
      omega
    · rw [if_neg same, if_neg (Ne.symm same)]
      exact h.next_add c
  · intro e he
    obtain rfl | he := Finset.mem_insert.mp he
    · refine ⟨next (chr s e), ?_, hroom.2, if_pos rfl⟩
      rw [if_pos rfl]
      omega
    · obtain ⟨i, hlo, hhi, hi⟩ := h.placed e he
      exact ⟨i, Nat.lt_of_le_of_lt (decreased _) hlo, hhi, (if_neg (frame hi)).trans hi⟩
  · intro i e he
    split at he
    · next same =>
        obtain rfl := Option.some.inj he
        refine ⟨Finset.mem_insert_self _ _, ?_, same ▸ hroom.2⟩
        rw [if_pos rfl]
        omega
    · obtain ⟨hmem, hlo, hhi⟩ := h.only i e he
      exact ⟨Finset.mem_insert_of_mem hmem, Nat.lt_of_le_of_lt (decreased _) hlo, hhi⟩
  · intro i i' e he he'
    split at he
    · next same =>
        obtain rfl := Option.some.inj he
        split at he'
        · next same' => exact same.trans same'.symm
        · exact absurd (h.only i' q he').1 new
    · split at he'
      · obtain rfl := Option.some.inj he'
        exact absurd (h.only i q he).1 new
      · exact h.unique i i' e he he'
  · intro i i' e e' hlt he he' hchr
    split at he
    · obtain rfl := Option.some.inj he
      split at he'
      · omega
      · exact left e' (h.only i' e' he').1 hchr.symm
    · split at he'
      · next same' =>
          obtain rfl := Option.some.inj he'
          have := (h.only i e he).2.1
          rw [hchr] at this
          omega
      · exact h.order i i' e e' hlt he he' hchr

/-- With every LMS position placed and the empty suffix in slot 0 the array is seeded. -/
theorem seeds (h : Seeding s R done cell next) (all : ∀ q, IsLMS s q → q ∈ done) :
    Seeds s R (fun i => if i = 0 then some s.length else cell i) where
  zero := if_pos rfl
  lms q hq := by
    obtain ⟨i, hlo, hhi, hi⟩ := h.placed q (all q hq)
    have := h.le_next (chr s q)
    exact ⟨i, ⟨by omega, hhi⟩, (if_neg (by omega)).trans hi⟩
  only i e hpos he := by
    rw [if_neg (by omega)] at he
    obtain ⟨hmem, hlo, hhi⟩ := h.only i e he
    have := h.le_next (chr s e)
    exact ⟨h.lms e hmem, by omega, hhi⟩
  unique i i' e he he' := by
    have proper : ∀ {i}, cell i ≠ some s.length := fun hi => by
      have := (h.lms _ (h.only _ _ hi).1).2.1
      omega
    split at he
    · obtain rfl := Option.some.inj he
      split at he'
      · omega
      · exact absurd he' proper
    · split at he'
      · obtain rfl := Option.some.inj he'
        exact absurd he proper
      · exact h.unique i i' e he he'
  order i i' e e' hpos hlt he he' hchr := by
    rw [if_neg (by omega)] at he he'
    exact h.order i i' e e' hlt he he' hchr

end Seeding

/-- One placement of the source. -/
theorem putTail_seeding (level : IsLevel s lo size) {done : Finset Nat}
    {cell : Nat → Option Nat} {next : Nat → Nat} (h : Seeding s R done cell next) {q : Nat}
    (hq : IsLMS s q) (new : q ∉ done) (left : ∀ e ∈ done, chr s e = chr s q → R q e) :
    ∃ cell' next', putTail s lo q (slots s cell, pointers lo size next) =
      .ok (slots s cell', pointers lo size next') ∧ Seeding s R (insert q done) cell' next' := by
  have bounds := bucket_le_length (h.room hq new).bounds
  exact ⟨_, _, putTail_eq level hq.2.1 bounds.1 bounds.2, h.put hq new left⟩

theorem replicate_eq_slots (s : List Nat) :
    List.replicate (s.length + 1) invalid = slots s (fun _ => none) := replicate_eq_table _ _

/-- Right-to-left text order within each bucket. -/
theorem guessSortLMS_eq (level : IsLevel s lo size) :
    ∃ cell, guessSortLMS s (typesOf s) (tailsOf s lo size) lo = .ok (slots s cell) ∧
      Seeds s (fun e e' => e' < e) cell := by
  let done (i : Nat) : Finset Nat := (Finset.range i).filter (IsLMS s)
  let inv (i : Nat) (state : List Nat × List Nat) : Prop := ∃ cell next,
    state = (slots s cell, pointers lo size next) ∧
      Seeding s (fun e e' => e' < e) (done i) cell next
  have init : inv 1 (slots s (fun _ => none), tailsOf s lo size) := by
    refine ⟨_, _, Prod.ext rfl (tailsOf_eq_pointers s lo size), ?_⟩
    have : done 1 = ∅ := by
      rw [Finset.filter_eq_empty_iff]
      intro q hq hlms
      have := hlms.1
      have := Finset.mem_range.mp hq
      omega
    rw [this]
    exact Seeding.start s _
  have step : ∀ i state, 1 ≤ i → i < s.length → inv i state → ∃ t, (do
      if ← idxIsLMSC i (typesOf s) then putTail s lo i state else return state) = .ok t ∧
        inv (i + 1) t := by
    rintro i _ hpos hi ⟨cell, next, rfl, h⟩
    have hdone : done (i + 1) = if IsLMS s i then insert i (done i) else done i := by
      simp only [done, Finset.range_add_one, Finset.filter_insert]
    rw [idxIsLMSC_eq hpos hi, ok_bind]
    by_cases hlms : IsLMS s i
    · rw [if_pos (decide_eq_true hlms)]
      obtain ⟨cell', next', run, h'⟩ := putTail_seeding level h hlms
        (fun hmem => absurd (Finset.mem_range.mp (Finset.mem_filter.mp hmem).1) (Nat.lt_irrefl _))
        (fun e he _ => Finset.mem_range.mp (Finset.mem_filter.mp he).1)
      rw [if_pos hlms] at hdone
      exact ⟨_, run, cell', next', rfl, hdone ▸ h'⟩
    · rw [if_neg (by simpa using hlms)]
      rw [if_neg hlms] at hdone
      exact ⟨_, rfl, cell, next, rfl, hdone ▸ h⟩
  obtain ⟨_, run, cell, next, rfl, h⟩ :=
    forUp_ok inv level.pos (level.lt_pow (Nat.le_refl _)) init step
  refine ⟨_, ?_, h.seeds (fun q hq => Finset.mem_filter.mpr ⟨Finset.mem_range.mpr hq.2.1, hq⟩)⟩
  rw [guessSortLMS, replicate_eq_slots, run, ok_bind, store_slots (Nat.zero_le _)]

/-- The LMS positions listed by a summary's suffix array from entry 2 on, by
increasing suffix. -/
structure LmsListed (s : List Nat) (R : Nat → Nat → Prop) (summarySA summIdc : List Nat)
    (pos : Nat → Nat) (m : Nat) : Prop where
  length_eq : summarySA.length = m + 1
  entry : ∀ k, 1 < k → k ≤ m → ∃ p, summarySA[k]? = some p ∧ summIdc[p]? = some (pos k)
  lms : ∀ k, 1 < k → k ≤ m → IsLMS s (pos k)
  all : ∀ q, IsLMS s q → ∃ k, 1 < k ∧ k ≤ m ∧ pos k = q
  unique : ∀ k k', 1 < k → k < k' → k' ≤ m → pos k ≠ pos k'
  order : ∀ k k', 1 < k → k < k' → k' ≤ m → R (pos k) (pos k')

theorem lmsSort_eq (level : IsLevel s lo size) {summarySA summIdc : List Nat} {pos : Nat → Nat}
    {m : Nat} (hm : 1 ≤ m) (listed : LmsListed s R summarySA summIdc pos m) :
    ∃ cell, lmsSort s (tailsOf s lo size) (typesOf s) summarySA summIdc lo =
      .ok (slots s cell) ∧ Seeds s R cell := by
  let done (i : Nat) : Finset Nat := (Finset.Ioc i m).image pos
  let inv (i : Nat) (state : List Nat × List Nat) : Prop := ∃ cell next,
    state = (slots s cell, pointers lo size next) ∧ Seeding s R (done i) cell next
  have init : inv m (slots s (fun _ => none), tailsOf s lo size) := by
    refine ⟨_, _, Prod.ext rfl (tailsOf_eq_pointers s lo size), ?_⟩
    have : done m = ∅ := by simp only [done, Finset.Ioc_self, Finset.image_empty]
    rw [this]
    exact Seeding.start s R
  have step : ∀ i state, 1 < i → i ≤ m → inv i state → ∃ t, (do
      let idx ← load summIdc (← load summarySA i)
      putTail s lo idx state) = .ok t ∧ inv (i - 1) t := by
    rintro i _ hlo hi ⟨cell, next, rfl, h⟩
    obtain ⟨p, hp, hpos⟩ := listed.entry i hlo hi
    have later : ∀ e ∈ done i, ∃ k, i < k ∧ k ≤ m ∧ pos k = e := by
      intro e he
      obtain ⟨k, hk, same⟩ := Finset.mem_image.mp he
      exact ⟨k, (Finset.mem_Ioc.mp hk).1, (Finset.mem_Ioc.mp hk).2, same⟩
    obtain ⟨cell', next', run, h'⟩ := putTail_seeding level h (listed.lms i hlo hi)
      (by
        intro hmem
        obtain ⟨k, hk, hkm, same⟩ := later _ hmem
        exact listed.unique i k hlo hk hkm same.symm)
      (by
        rintro e he _
        obtain ⟨k, hk, hkm, rfl⟩ := later e he
        exact listed.order i k hlo hk hkm)
    have hdone : insert (pos i) (done i) = done (i - 1) := by
      rw [← Finset.image_insert]
      congr 1
      ext k
      simp only [Finset.mem_insert, Finset.mem_Ioc]
      omega
    refine ⟨_, ?_, cell', next', rfl, hdone ▸ h'⟩
    rw [load_eq_ok.mpr hp, ok_bind, load_eq_ok.mpr hpos, ok_bind, run]
  obtain ⟨_, run, cell, next, rfl, h⟩ := forDown_ok inv hm init step
  refine ⟨_, ?_, h.seeds (fun q hq => ?_)⟩
  · rw [lmsSort, listed.length_eq, sub_of_le (Nat.le_add_left 1 m), ok_bind,
      Nat.add_sub_cancel, replicate_eq_slots, run, ok_bind, store_slots (Nat.zero_le _)]
  · obtain ⟨k, hk, hkm, same⟩ := listed.all q hq
    exact Finset.mem_image.mpr ⟨k, Finset.mem_Ioc.mpr ⟨hk, hkm⟩, same⟩

end SuffixArray.InducedSorting
