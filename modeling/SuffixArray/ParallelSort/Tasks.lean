import SuffixArray.ParallelSort.Split

/-!
# The tasks of the sort

Every range that is still to be sorted belongs to one task, and no position to two. Two
positions that no range holds together are already in order. An action of a task stays
inside its range, where it establishes the same for the tasks it leaves, and so it keeps
this for the whole array whatever the other tasks are in the middle of.
-/

namespace ParallelSort

open Checked

variable {α : Type} {comp : α → α → Bool} {array part part' : List α} {begin : Nat}

section Splice

/-- The elements of a range. -/
def QuickSortRange.elements (range : QuickSortRange) (array : List α) : List α :=
  (array.drop range.begin).take range.size

theorem getElem?_elements (range : QuickSortRange) (array : List α) (k : Nat) :
    (range.elements array)[k]? = if k < range.size then array[range.begin + k]? else none := by
  rw [QuickSortRange.elements, List.getElem?_take, List.getElem?_drop]

theorem length_elements {range : QuickSortRange}
    (inside : range.begin + range.size ≤ array.length) :
    (range.elements array).length = range.size := by
  rw [QuickSortRange.elements, List.length_take, List.length_drop]
  omega

theorem slice_elements {range : QuickSortRange}
    (inside : range.begin + range.size ≤ array.length) :
    slice array range.begin (range.begin + range.size) = .ok (range.elements array) := by
  rw [slice_of_le (Nat.le_add_right _ _) inside, Nat.add_sub_cancel_left]
  rfl

variable (inside : begin + part.length ≤ array.length)
include inside

theorem getElem?_splice_before {k : Nat} (hk : k < begin) :
    (splice array begin part)[k]? = array[k]? := by
  have : k < (array.take begin).length := by rw [List.length_take]; omega
  rw [splice, List.append_assoc, List.getElem?_append_left this, List.getElem?_take_of_lt hk]

theorem getElem?_splice_behind {k : Nat} (hk : begin + part.length ≤ k) :
    (splice array begin part)[k]? = array[k]? := by
  have front : (array.take begin ++ part).length = begin + part.length := by
    rw [List.length_append, List.length_take]
    omega
  rw [splice, List.getElem?_append_right (by omega), front, List.getElem?_drop]
  congr 1
  omega

theorem getElem?_splice_inside {k : Nat} (hk : k < part.length) :
    (splice array begin part)[begin + k]? = part[k]? := by
  have front : (array.take begin).length = begin := by
    rw [List.length_take]
    omega
  rw [splice, List.append_assoc, List.getElem?_append_right (by omega), front,
    List.getElem?_append_left (by omega)]
  congr 1
  omega

omit inside

theorem splice_perm {range : QuickSortRange} (inside : range.begin + range.size ≤ array.length)
    (perm : part.Perm (range.elements array)) :
    (splice array range.begin part).Perm array := by
  have length : part.length = range.size := by rw [perm.length_eq, length_elements inside]
  have whole : array.take range.begin ++ range.elements array ++
      array.drop (range.begin + range.size) = array := by
    rw [QuickSortRange.elements, ← List.drop_drop, List.append_assoc, List.take_append_drop,
      List.take_append_drop]
  conv_rhs => rw [← whole]
  rw [splice, length]
  exact (perm.append_left _).append_right _

end Splice

def QuickSortRange.Covers (range : QuickSortRange) (p : Nat) : Prop :=
  range.begin ≤ p ∧ p < range.begin + range.size

/-- A task in the middle of a split has its range as the loop left it. -/
def Working (comp : α → α → Bool) (array : List α) (task : Task) : Prop :=
  ∀ i j, task.phase = .splitting i j →
    ∃ key, Scanned comp (task.range.elements array) i j key

/-- The tasks of the positions from `lo` up to `hi`. -/
structure Arranged (comp : α → α → Bool) (array : List α) (lo hi : Nat) (tasks : List Task) :
    Prop where
  inside : ∀ t ∈ tasks, lo ≤ t.range.begin ∧ t.range.begin + t.range.size ≤ hi
  apart : tasks.Pairwise (fun t u => ∀ p, t.range.Covers p → ¬ u.range.Covers p)
  working : ∀ t ∈ tasks, Working comp array t
  ordered : ∀ p q x y, lo ≤ p → p < q → q < hi → array[p]? = some x → array[q]? = some y →
    (∀ t ∈ tasks, t.range.Covers p → ¬ t.range.Covers q) → comp y x = false

theorem arranged_whole (comp : α → α → Bool) (array : List α) :
    Arranged comp array 0 array.length [wholeRange array] where
  inside := by
    intro t ht
    obtain rfl := List.mem_singleton.mp ht
    exact ⟨Nat.zero_le _, Nat.le_of_eq (Nat.zero_add _)⟩
  apart := List.pairwise_singleton _ _
  working := by
    intro t ht i j hphase
    obtain rfl := List.mem_singleton.mp ht
    contradiction
  ordered := by
    intro p q x y _ hpq hq _ _ alone
    have covers : ∀ k, k < array.length → (wholeRange array).range.Covers k :=
      fun k hk => ⟨Nat.zero_le k, Nat.lt_of_lt_of_eq hk (Nat.zero_add _).symm⟩
    exact absurd (covers q hq) (alone _ List.mem_cons_self (covers p (hpq.trans hq)))

/-- Without tasks everything is in order. -/
theorem Arranged.pairwise (h : Arranged comp array 0 array.length []) :
    array.Pairwise (fun x y => comp y x = false) := by
  rw [List.pairwise_iff_getElem]
  intro p q hp hq hpq
  exact h.ordered p q _ _ (Nat.zero_le p) hpq hq (List.getElem?_eq_getElem hp)
    (List.getElem?_eq_getElem hq) (fun t ht => absurd ht List.not_mem_nil)

/-- An element of a range that an action has permuted was in the range before. -/
theorem exists_source {range : QuickSortRange}
    (inside : range.begin + range.size ≤ array.length)
    (perm : part.Perm (range.elements array)) {p : Nat} {x : α} (covers : range.Covers p)
    (hx : (splice array range.begin part)[p]? = some x) :
    ∃ p', range.Covers p' ∧ array[p']? = some x := by
  obtain ⟨k, rfl⟩ := Nat.exists_eq_add_of_le covers.1
  have length : part.length = range.size := by rw [perm.length_eq, length_elements inside]
  have hk : k < part.length := by have := covers.2; omega
  rw [getElem?_splice_inside (by omega) hk] at hx
  obtain ⟨k', hk'⟩ := List.mem_iff_getElem?.mp (perm.mem_iff.mp (List.mem_of_getElem? hx))
  rw [getElem?_elements] at hk'
  split at hk'
  · next inside' => exact ⟨range.begin + k', ⟨Nat.le_add_right _ _, by omega⟩, hk'⟩
  · contradiction

/-- An action that permutes its range leaves the elements of the others as they are. -/
theorem elements_splice {range other : QuickSortRange}
    (inside : range.begin + range.size ≤ array.length)
    (perm : part.Perm (range.elements array))
    (apart : ∀ p, range.Covers p → ¬ other.Covers p) :
    other.elements (splice array range.begin part) = other.elements array := by
  have length : part.length = range.size := by rw [perm.length_eq, length_elements inside]
  refine List.ext_getElem? (fun k => ?_)
  rw [getElem?_elements, getElem?_elements]
  split
  · next hk =>
      obtain before | after := Nat.lt_or_ge (other.begin + k) range.begin
      · exact getElem?_splice_before (by omega) before
      · refine getElem?_splice_behind (by omega) (Nat.le_of_not_lt (fun within => ?_))
        exact apart (other.begin + k) ⟨after, length ▸ within⟩ ⟨Nat.le_add_right _ _, by omega⟩
  · rfl

section Replace

variable {before after tasks : List Task} {task : Task}

theorem mem_around {t : Task} :
    t ∈ before ++ task :: after ↔ t = task ∨ t ∈ before ∨ t ∈ after := by
  simp only [List.mem_append, List.mem_cons]
  tauto

theorem mem_between {t : Task} :
    t ∈ before ++ tasks ++ after ↔ t ∈ tasks ∨ t ∈ before ∨ t ∈ after := by
  simp only [List.mem_append]
  tauto

/-- The remaining tasks share no position with the one that acts. -/
theorem Arranged.apart_of_mem {lo hi : Nat}
    (h : Arranged comp array lo hi (before ++ task :: after)) {t : Task}
    (ht : t ∈ before ∨ t ∈ after) {p : Nat} (covers : task.range.Covers p) :
    ¬ t.range.Covers p := by
  obtain ⟨-, rest, cross⟩ := List.pairwise_append.mp h.apart
  obtain ht | ht := ht
  · exact fun htp => cross t ht task List.mem_cons_self p htp covers
  · exact (List.pairwise_cons.mp rest).1 t ht p covers

theorem splice_unchanged {range : QuickSortRange}
    (inside : range.begin + range.size ≤ array.length)
    (perm : part.Perm (range.elements array)) {p : Nat} (outside : ¬ range.Covers p) :
    (splice array range.begin part)[p]? = array[p]? := by
  have length : part.length = range.size := by rw [perm.length_eq, length_elements inside]
  obtain low | high := Nat.lt_or_ge p range.begin
  · exact getElem?_splice_before (by omega) low
  · refine getElem?_splice_behind (by omega) (Nat.le_of_not_lt (fun hlt => ?_))
    exact outside ⟨high, length ▸ hlt⟩

variable (h : Arranged comp array 0 array.length (before ++ task :: after))
  (perm : part.Perm (task.range.elements array))
  (replaced : Arranged comp (splice array task.range.begin part) task.range.begin
    (task.range.begin + task.range.size) tasks)
include h perm replaced

theorem Arranged.replace_ordered {p q : Nat} {x y : α} (hpq : p < q) (hq : q < array.length)
    (hx : (splice array task.range.begin part)[p]? = some x)
    (hy : (splice array task.range.begin part)[q]? = some y)
    (alone : ∀ t ∈ before ++ tasks ++ after, t.range.Covers p → ¬ t.range.Covers q) :
    comp y x = false := by
  have inside := (h.inside task (mem_around.mpr (Or.inl rfl))).2
  have unchanged {p : Nat} (hp : ¬ task.range.Covers p) := splice_unchanged inside perm hp
  -- Which of the two positions the task holds; an element inside was inside before.
  by_cases covP : task.range.Covers p <;> by_cases covQ : task.range.Covers q
  · exact replaced.ordered p q x y covP.1 hpq covQ.2 hx hy
      (fun t ht => alone t (mem_between.mpr (Or.inl ht)))
  · obtain ⟨p', covP', hx'⟩ := exists_source inside perm covP hx
    have beyond : task.range.begin + task.range.size ≤ q :=
      Nat.le_of_not_lt (fun hlt => covQ ⟨covP.1.trans hpq.le, hlt⟩)
    refine h.ordered p' q x y (Nat.zero_le _) (Nat.lt_of_lt_of_le covP'.2 beyond) hq hx'
      (unchanged covQ ▸ hy) (fun t ht htp => ?_)
    obtain rfl | other := mem_around.mp ht
    · exact covQ
    · exact absurd htp (h.apart_of_mem other covP')
  · obtain ⟨q', covQ', hy'⟩ := exists_source inside perm covQ hy
    have ahead : p < task.range.begin :=
      Nat.lt_of_not_le (fun hle => covP ⟨hle, hpq.trans covQ.2⟩)
    refine h.ordered p q' x y (Nat.zero_le _) (Nat.lt_of_lt_of_le ahead covQ'.1)
      (Nat.lt_of_lt_of_le covQ'.2 inside) (unchanged covP ▸ hx) hy' (fun t ht htp htq => ?_)
    obtain rfl | other := mem_around.mp ht
    · exact covP htp
    · exact h.apart_of_mem other covQ' htq
  · refine h.ordered p q x y (Nat.zero_le _) hpq hq (unchanged covP ▸ hx) (unchanged covQ ▸ hy)
      (fun t ht htp => ?_)
    obtain rfl | other := mem_around.mp ht
    · exact absurd htp covP
    · exact alone t (mem_between.mpr (Or.inr other)) htp

/-- What one task has done inside its range keeps the whole array arranged. -/
theorem Arranged.replace :
    Arranged comp (splice array task.range.begin part) 0 array.length
      (before ++ tasks ++ after) := by
  have inside := (h.inside task (mem_around.mpr (Or.inl rfl))).2
  have within : ∀ t ∈ tasks, ∀ p, t.range.Covers p → task.range.Covers p := by
    intro t ht p hp
    have := replaced.inside t ht
    exact ⟨this.1.trans hp.1, Nat.lt_of_lt_of_le hp.2 this.2⟩
  obtain ⟨apartBefore, apartRest, apartCross⟩ := List.pairwise_append.mp h.apart
  refine ⟨?_, ?_, ?_, fun p q x y _ => h.replace_ordered perm replaced⟩
  · intro t ht
    obtain ht | ht := mem_between.mp ht
    · exact ⟨Nat.zero_le _, (replaced.inside t ht).2.trans inside⟩
    · exact h.inside t (mem_around.mpr (Or.inr ht))
  · refine List.pairwise_append.mpr ⟨List.pairwise_append.mpr
      ⟨apartBefore, replaced.apart, ?_⟩, (List.pairwise_cons.mp apartRest).2, ?_⟩
    · intro t ht u hu p htp hup
      exact h.apart_of_mem (Or.inl ht) (within u hu p hup) htp
    · intro t ht u hu p htp hup
      obtain ht | ht := List.mem_append.mp ht
      · exact apartCross t ht u (List.mem_cons_of_mem _ hu) p htp hup
      · exact h.apart_of_mem (Or.inr hu) (within t ht p htp) hup
  · intro t ht
    obtain ht | ht := mem_between.mp ht
    · exact replaced.working t ht
    · intro i j hphase
      rw [elements_splice inside perm (fun p hp => h.apart_of_mem ht hp)]
      exact h.working t (mem_around.mpr (Or.inr ht)) i j hphase

end Replace

end ParallelSort
