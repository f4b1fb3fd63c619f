import Mathlib.Tactic.Ring
import SuffixArray.ParallelSort.Tasks

/-!
# One action of one task

An action returns, permutes the range, leaves it arranged for the tasks behind it and
lowers the weight: a split takes the key out of the sizes and a round lowers a cursor.
-/

namespace ParallelSort

open Checked

variable {α : Type} {comp : α → α → Bool} {array part : List α}

/-- What is relied on of `std::sort`. -/
structure Sorts (sort : List α → List α) (comp : α → α → Bool) : Prop where
  perm : ∀ l, (sort l).Perm l
  sorted : ∀ l, (sort l).Pairwise (fun x y => comp y x = false)

def Task.weight (task : Task) : Nat :=
  match task.phase with
  | .waiting => (task.range.size + 1) ^ 2
  | .splitting _ j => task.range.size ^ 2 + j + 2

def weight (tasks : List Task) : Nat := (tasks.map Task.weight).sum

@[simp] theorem weight_nil : weight [] = 0 := rfl

@[simp] theorem weight_cons (task : Task) (tasks : List Task) :
    weight (task :: tasks) = task.weight + weight tasks := rfl

@[simp] theorem weight_append (tasks rest : List Task) :
    weight (tasks ++ rest) = weight tasks + weight rest := by
  rw [weight, List.map_append, List.sum_append]
  rfl

/-- What an action has to establish in the range of its task. -/
structure Replaces (comp : α → α → Bool) (array : List α) (task : Task) (part : List α)
    (tasks : List Task) : Prop where
  perm : part.Perm (task.range.elements array)
  arranged : Arranged comp (splice array task.range.begin part) task.range.begin
    (task.range.begin + task.range.size) tasks
  lighter : weight tasks < task.weight

theorem elements_splice_self {range : QuickSortRange}
    (inside : range.begin + range.size ≤ array.length) (length : part.length = range.size) :
    range.elements (splice array range.begin part) = part := by
  refine List.ext_getElem? (fun k => ?_)
  rw [getElem?_elements]
  split
  · next hk => exact getElem?_splice_inside (by omega) (by omega)
  · next hk => exact (List.getElem?_eq_none (by omega)).symm

/-- A task that keeps its range keeps the order of everything outside. -/
theorem arranged_single {task : Task} (working : Working comp array task) :
    Arranged comp array task.range.begin (task.range.begin + task.range.size) [task] where
  inside := by
    intro t ht
    obtain rfl := List.mem_singleton.mp ht
    exact ⟨Nat.le_refl _, Nat.le_refl _⟩
  apart := List.pairwise_singleton _ _
  working := by
    intro t ht
    obtain rfl := List.mem_singleton.mp ht
    exact working
  ordered := by
    intro p q _ _ hlo hpq hhi _ _ alone
    exact absurd ⟨hlo.trans hpq.le, hhi⟩ (alone task List.mem_cons_self ⟨hlo, hpq.trans hhi⟩)

section

variable {range : QuickSortRange} (inside : range.begin + range.size ≤ array.length)
include inside

theorem beginSplit_ok (order : StrictWeak comp) (divisible : range.isDivisible) :
    ∃ part tasks, beginSplit comp range (range.elements array) = .ok (part, tasks) ∧
      Replaces comp array ⟨range, .waiting⟩ part tasks := by
  have large : 500 ≤ range.size := divisible
  have length := length_elements inside
  have nonempty : 0 < (range.elements array).length := by omega
  obtain ⟨part, choose, perm⟩ := chooseKey_ok comp nonempty
  have size : part.length = range.size := perm.length_eq.trans length
  have start : 0 < part.length := by omega
  refine ⟨part, [⟨range, .splitting 0 range.size⟩], ?_, perm, ?_, ?_⟩
  · rw [beginSplit, choose, ok_bind, pure_eq_ok]
  · refine @arranged_single _ _ _ ⟨range, .splitting 0 range.size⟩ ?_
    rintro i j ⟨⟩
    refine ⟨part[0], ?_⟩
    rw [elements_splice_self inside size, ← size]
    exact scanned_start order (List.getElem?_eq_getElem start)
  · have square : (range.size + 1) ^ 2 = range.size ^ 2 + 2 * range.size + 1 := by ring
    simp only [weight_cons, weight_nil, Task.weight, square]
    omega

theorem body_ok {sort : List α → List α} (sorts : Sorts sort comp) :
    Replaces comp array ⟨range, .waiting⟩ (sort (range.elements array)) [] := by
  have perm := sorts.perm (range.elements array)
  have size := perm.length_eq.trans (length_elements inside)
  refine ⟨perm, ⟨by simp, List.Pairwise.nil, by simp, ?_⟩, ?_⟩
  · intro p q x y hlo hpq hhi hx hy _
    obtain ⟨k, rfl⟩ := Nat.exists_eq_add_of_le hlo
    obtain ⟨l, rfl⟩ := Nat.exists_eq_add_of_le (hlo.trans hpq.le)
    dsimp only at hx hy hhi
    rw [getElem?_splice_inside (by omega) (by omega)] at hx hy
    obtain ⟨hk, rfl⟩ := List.getElem?_eq_some_iff.mp hx
    obtain ⟨hl, rfl⟩ := List.getElem?_eq_some_iff.mp hy
    exact List.pairwise_iff_getElem.mp (sorts.sorted _) k l hk hl (by omega)
  · exact Nat.succ_pos _

/-- The key keeps its place; what lies on both sides of it becomes a range each. -/
theorem Placed.arranged (order : StrictWeak comp) {key : α} {j : Nat}
    (h : Placed comp part j key) (length : part.length = range.size) (bound : j < range.size) :
    Arranged comp (splice array range.begin part) range.begin (range.begin + range.size)
      [⟨⟨range.begin, j⟩, .waiting⟩,
        ⟨⟨range.begin + j + 1, range.size - (j + 1)⟩, .waiting⟩] where
  inside := by
    intro t ht
    simp only [List.mem_cons, List.not_mem_nil, or_false] at ht
    obtain rfl | rfl := ht <;> dsimp only <;> omega
  apart := by
    refine List.pairwise_pair.mpr (fun p left right => ?_)
    have := left.2
    have := right.1
    dsimp only at *
    omega
  working := by
    intro t ht
    simp only [List.mem_cons, List.not_mem_nil, or_false] at ht
    obtain rfl | rfl := ht <;> rintro _ _ ⟨⟩
  ordered := by
    intro p q x y hlo hpq hhi hx hy alone
    obtain ⟨k, rfl⟩ := Nat.exists_eq_add_of_le hlo
    obtain ⟨l, rfl⟩ := Nat.exists_eq_add_of_le (hlo.trans hpq.le)
    rw [getElem?_splice_inside (by omega) (by omega)] at hx hy
    have notLeft : j ≤ l := by
      refine Nat.le_of_not_lt (fun hl => ?_)
      exact alone _ List.mem_cons_self ⟨hlo, by dsimp only; omega⟩
        ⟨by dsimp only; omega, by dsimp only; omega⟩
    have notRight : k ≤ j := by
      refine Nat.le_of_not_lt (fun hk => ?_)
      exact alone _ (List.mem_cons_of_mem _ List.mem_cons_self)
        ⟨by dsimp only; omega, by dsimp only; omega⟩
        ⟨by dsimp only; omega, by dsimp only; omega⟩
    -- Both are compared with the key, which may be one of them.
    have low : comp key x = false := by
      obtain rfl | hk := Nat.eq_or_lt_of_le notRight
      · rw [h.at_j, Option.some.injEq] at hx
        exact hx ▸ order.irrefl key
      · exact h.low k x hk hx
    have high : comp y key = false := by
      obtain rfl | hl := Nat.eq_or_lt_of_le notLeft
      · rw [h.at_j, Option.some.injEq] at hy
        exact hy ▸ order.irrefl key
      · exact h.high l y hl hy
    exact order.trans low high

theorem continueSplit_ok (order : StrictWeak comp) {i j : Nat}
    (working : Working comp array ⟨range, .splitting i j⟩) :
    ∃ part tasks, continueSplit comp range i j (range.elements array) = .ok (part, tasks) ∧
      Replaces comp array ⟨range, .splitting i j⟩ part tasks := by
  have length := length_elements inside
  obtain ⟨key, scanned⟩ := working i j rfl
  obtain ⟨part, i', j', run, perm, closer, ⟨rfl, met⟩ | scanned'⟩ := round_ok order scanned
  · obtain ⟨part', swap, perm', placed⟩ := met.place
    have size : part'.length = range.size := (perm'.trans perm).length_eq.trans length
    have bound : i' < range.size := by
      have := met.bound
      rwa [perm.length_eq, length] at this
    refine ⟨part', _, ?_, perm'.trans perm, placed.arranged inside order size bound, ?_⟩
    · rw [continueSplit, run, ok_bind]
      refine (if_pos rfl).trans ?_
      rw [swap, ok_bind, sub_of_le bound, ok_bind, pure_eq_ok]
    · obtain ⟨right, hsize⟩ : ∃ right, range.size = i' + 1 + right :=
        Nat.exists_eq_add_of_le bound
      have squares : (i' + 1 + right) ^ 2 + 1 =
          (i' + 1) ^ 2 + (right + 1) ^ 2 + 2 * (i' * right) := by ring
      simp only [weight_cons, weight_nil, Task.weight, hsize, Nat.add_sub_cancel_left]
      omega
  · have size : part.length = range.size := perm.length_eq.trans length
    refine ⟨part, [⟨range, .splitting i' j'⟩], ?_, perm, ?_, ?_⟩
    · rw [continueSplit, run, ok_bind]
      exact if_neg scanned'.order.ne
    · refine @arranged_single _ _ _ ⟨range, .splitting i' j'⟩ ?_
      rintro _ _ ⟨⟩
      rw [elements_splice_self inside size]
      exact ⟨key, scanned'⟩
    · simp only [weight_cons, weight_nil, Task.weight]
      omega

end

/-- Whatever a task does, it returns and replaces the task by lighter ones. -/
theorem TaskAction.ok (order : StrictWeak comp) {sort : List α → List α}
    (sorts : Sorts sort comp) {task : Task} {result : Run (List α × List Task)}
    (inside : task.range.begin + task.range.size ≤ array.length)
    (working : Working comp array task)
    (action : TaskAction comp sort (task.range.elements array) task result) :
    ∃ part tasks, result = .ok (part, tasks) ∧ Replaces comp array task part tasks := by
  cases action with
  | split divisible => exact beginSplit_ok inside order divisible
  | round => exact continueSplit_ok inside order working
  | body => exact ⟨_, _, rfl, body_ok inside sorts⟩

section Uninterrupted

open Relation (ReflTransGen)

variable {sort : List α → List α} {range : QuickSortRange} {before after : List Task}

theorem iterSwap_length {i j : Nat} (run : iterSwap array i j = .ok part) :
    part.length = array.length := by
  obtain ⟨x, _, run⟩ := bind_eq_ok.mp run
  obtain ⟨y, _, run⟩ := bind_eq_ok.mp run
  obtain ⟨middle, first, second⟩ := bind_eq_ok.mp run
  obtain ⟨_, rfl⟩ := store_eq_ok.mp first
  obtain ⟨_, rfl⟩ := store_eq_ok.mp second
  rw [List.length_set, List.length_set]

theorem chooseKey_length (run : chooseKey comp array = .ok part) :
    part.length = array.length := by
  obtain ⟨m, _, run⟩ := bind_eq_ok.mp run
  split at run
  · exact iterSwap_length run
  · exact congrArg List.length (Except.ok.inj run).symm

theorem round_length {i j : Nat} {next : List α × Nat × Nat}
    (run : round comp array i j = .ok next) : next.1.length = array.length := by
  obtain ⟨j', _, run⟩ := bind_eq_ok.mp run
  obtain ⟨i', _, run⟩ := bind_eq_ok.mp run
  split at run
  · exact congrArg (·.1.length) (Except.ok.inj run).symm
  · obtain ⟨part, swap, run⟩ := bind_eq_ok.mp run
    obtain rfl := Except.ok.inj run
    exact iterSwap_length swap

theorem rounds_length {fuel i j : Nat} {placed : List α × Nat}
    (run : rounds comp fuel array i j = .ok placed) : placed.1.length = array.length := by
  induction fuel generalizing array i j with
  | zero => exact nomatch run
  | succ fuel ih =>
      obtain ⟨next, first, run⟩ := bind_eq_ok.mp run
      split at run
      · obtain rfl := Except.ok.inj run
        exact round_length first
      · exact (ih run).trans (round_length first)

variable (inside : range.begin + range.size ≤ array.length)
include inside

theorem splice_splice {part' : List α} (length : part.length = range.size)
    (length' : part'.length = range.size) :
    splice (splice array range.begin part) range.begin part' =
      splice array range.begin part' := by
  have front : (array.take range.begin).length = range.begin := by
    rw [List.length_take]
    omega
  have both : (array.take range.begin ++ part).length = range.begin + part'.length := by
    rw [List.length_append, front, length, length']
  have inner : (splice array range.begin part).take range.begin = array.take range.begin := by
    rw [splice, List.append_assoc, List.take_left' front]
  have behind : (splice array range.begin part).drop (range.begin + part'.length) =
      array.drop (range.begin + part'.length) := by
    rw [splice, List.drop_left' both, length, length']
  rw [splice, inner, behind, splice]

/-- One action of a task on its range as the last one left it. -/
theorem task_step {phase : Phase} {result : List α × List Task} (length : part.length = range.size)
    (length' : result.1.length = range.size)
    (action : TaskAction comp sort part ⟨range, phase⟩ (.ok result)) :
    Step comp sort (.sorting (splice array range.begin part) (before ++ ⟨range, phase⟩ :: after))
      (.sorting (splice array range.begin result.1) (before ++ result.2 ++ after)) := by
  have bound : range.begin + range.size ≤ (splice array range.begin part).length := by
    rw [splice, List.length_append, List.length_append, List.length_take]
    omega
  have read : slice (splice array range.begin part) range.begin (range.begin + range.size) =
      .ok part := by
    rw [slice_elements bound, elements_splice_self inside length]
  have step : Step comp sort
      (.sorting (splice array range.begin part) (before ++ ⟨range, phase⟩ :: after)) _ :=
    .task read action
  rwa [resumeSort, splice_splice inside length length'] at step

theorem rounds_steps {fuel i j m : Nat} {placed : List α × Nat} {part' : List α}
    (length : part.length = range.size) (run : rounds comp fuel part i j = .ok placed)
    (swap : iterSwap placed.1 placed.2 0 = .ok part')
    (newRangeSize : sub range.size (placed.2 + 1) = .ok m) :
    ReflTransGen (Step comp sort)
      (.sorting (splice array range.begin part) (before ++ ⟨range, .splitting i j⟩ :: after))
      (.sorting (splice array range.begin part')
        (before ++ [⟨⟨range.begin, placed.2⟩, .waiting⟩,
          ⟨⟨range.begin + placed.2 + 1, m⟩, .waiting⟩] ++ after)) := by
  induction fuel generalizing part i j with
  | zero => exact nomatch run
  | succ fuel ih =>
      obtain ⟨next, first, run⟩ := bind_eq_ok.mp run
      have kept : next.1.length = range.size := (round_length first).trans length
      split at run
      · next met =>
          obtain rfl := Except.ok.inj run
          have action : TaskAction comp sort part ⟨range, .splitting i j⟩
              (.ok (part', [⟨⟨range.begin, next.2.2⟩, .waiting⟩,
                ⟨⟨range.begin + next.2.2 + 1, m⟩, .waiting⟩])) := by
            have whole : TaskAction comp sort part ⟨range, .splitting i j⟩
              (continueSplit comp range i j part) := .round
            rwa [continueSplit, first, ok_bind, if_pos met, swap, ok_bind, newRangeSize,
              ok_bind] at whole
          exact .single (task_step inside length ((iterSwap_length swap).trans kept) action)
      · next apart =>
          have action : TaskAction comp sort part ⟨range, .splitting i j⟩
              (.ok (next.1, [⟨range, .splitting next.2.1 next.2.2⟩])) := by
            have whole : TaskAction comp sort part ⟨range, .splitting i j⟩
              (continueSplit comp range i j part) := .round
            rwa [continueSplit, first, ok_bind, if_neg apart] at whole
          refine .head (task_step inside length kept action) ?_
          rw [List.append_assoc, List.singleton_append]
          exact ih kept run

/-- `split_range` is what a task comes to that nothing interrupts. -/
theorem splitRange_steps {j m : Nat} (divisible : range.isDivisible)
    (run : splitRange comp (range.elements array) = .ok (part, j, m)) :
    ReflTransGen (Step comp sort) (.sorting array (before ++ ⟨range, .waiting⟩ :: after))
      (.sorting (splice array range.begin part)
        (before ++ [⟨⟨range.begin, j⟩, .waiting⟩, ⟨⟨range.begin + j + 1, m⟩, .waiting⟩] ++
          after)) := by
  have length := length_elements inside
  have whole : splice array range.begin (range.elements array) = array := by
    rw [splice, length, QuickSortRange.elements, ← List.drop_drop, List.append_assoc,
      List.take_append_drop, List.take_append_drop]
  obtain ⟨chosen, choose, run⟩ := bind_eq_ok.mp run
  obtain ⟨placed, rounds, run⟩ := bind_eq_ok.mp run
  obtain ⟨part', swap, run⟩ := bind_eq_ok.mp run
  obtain ⟨newSize, newRangeSize, run⟩ := bind_eq_ok.mp run
  obtain ⟨rfl, rfl, rfl⟩ : part' = part ∧ placed.2 = j ∧ newSize = m := by
    simpa using run
  have kept : chosen.length = range.size := (chooseKey_length choose).trans length
  rw [(iterSwap_length swap).trans ((rounds_length rounds).trans kept)] at newRangeSize
  have action : TaskAction comp sort (range.elements array) ⟨range, .waiting⟩
      (.ok (chosen, [⟨range, .splitting 0 range.size⟩])) := by
    have start : TaskAction comp sort (range.elements array) ⟨range, .waiting⟩
      (beginSplit comp range (range.elements array)) := .split divisible
    rwa [beginSplit, choose, ok_bind] at start
  have first : Step comp sort
      (.sorting (splice array range.begin (range.elements array))
        (before ++ ⟨range, .waiting⟩ :: after)) _ := task_step inside length kept action
  rw [whole, List.append_assoc, List.singleton_append] at first
  rw [kept] at rounds
  exact .head first (rounds_steps inside kept rounds swap newRangeSize)

end Uninterrupted

end ParallelSort
