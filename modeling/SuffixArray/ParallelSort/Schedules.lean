import SuffixArray.ParallelSort.Actions
import SuffixArray.ParallelSort.Pretest
import SuffixArray.Schedule

/-!
# Every schedule sorts

Whatever is run next, the pretest comes to an end and decides between the two ways on by
whether the array is in order; from then on every action keeps the array arranged and
lowers the weight, so the sort comes to its end as well, with everything in order.
-/

namespace ParallelSort

open Checked
open Relation (ReflTransGen)
open Schedule (Inevitable)

variable {α : Type} {comp : α → α → Bool} {sort : List α → List α} {array : List α}

/-- What holds between two actions of a sort of `array`. -/
def Kept (comp : α → α → Bool) (array : List α) : State α → Prop
  | .pretesting now chunks cancelled => now = array ∧ Pretested comp array chunks cancelled
  | .sorting now tasks => now.Perm array ∧ Arranged comp now 0 now.length tasks
  | .done now => now.Perm array ∧ now.Pairwise (fun x y => comp y x = false)
  | .failed _ => False

/-- What every action lowers. -/
def State.measure : State α → Nat
  | .pretesting array chunks _ => chunksWeight chunks + (array.length + 1) ^ 2 + 2
  | .sorting _ tasks => weight tasks + 1
  | .done _ => 0
  | .failed _ => 0

/-- The end of a sort of `array`. -/
def Sorted (comp : α → α → Bool) (array : List α) (s : State α) : Prop :=
  ∃ now, s = .done now ∧ now.Perm array ∧ now.Pairwise (fun x y => comp y x = false)

/-- How the pretest ends: with the array as it is if it is in order, and with all of it
left to the tasks if it is not. -/
inductive Verdict (comp : α → α → Bool) (array : List α) : State α → Prop
  | sorted : array.Pairwise (fun x y => comp y x = false) → Verdict comp array (.done array)
  | unsorted : ¬ array.Pairwise (fun x y => comp y x = false) →
      Verdict comp array (.sorting array [wholeRange array])

/-- Up to the verdict there are only chunks. -/
def Pending (comp : α → α → Bool) (array : List α) (s : State α) : Prop :=
  ∃ chunks cancelled, s = .pretesting array chunks cancelled ∧
    Pretested comp array chunks cancelled

theorem Pending.kept {s : State α} (h : Pending comp array s) : Kept comp array s := by
  obtain ⟨chunks, cancelled, rfl, pretested⟩ := h
  exact ⟨rfl, pretested⟩

theorem Verdict.kept {s : State α} (h : Verdict comp array s) : Kept comp array s := by
  cases h with
  | sorted sorted => exact ⟨List.Perm.refl _, sorted⟩
  | unsorted _ => exact ⟨List.Perm.refl _, arranged_whole comp array⟩

theorem kept_of_pretest {s : State α} (h : Verdict comp array s ∨ Pending comp array s) :
    Kept comp array s := h.elim Verdict.kept Pending.kept

/-- A step of the pretest goes on with it or ends it. -/
theorem Pending.step (order : StrictWeak comp) {s t : State α} (h : Pending comp array s)
    (step : Step comp sort s t) :
    (Verdict comp array t ∨ Pending comp array t) ∧ t.measure < s.measure := by
  obtain ⟨chunks, cancelled, rfl, pretested⟩ := h
  cases step with
  | @chunk _ before after chunk _ result action =>
      have sound := pretested.sound chunk (List.mem_append_right _ List.mem_cons_self)
      obtain ⟨chunks, cancelled', rfl, tests⟩ := action.ok sound
      refine ⟨Or.inr ⟨_, _, rfl, pretested.replace tests⟩, ?_⟩
      have := tests.lighter
      simp only [resumePretest, State.measure, chunksWeight_append, chunksWeight_cons]
      omega
  | pretested =>
      cases cancelled with
      | true =>
          obtain ⟨k, lower, upper, hk⟩ := pretested.found rfl
          refine ⟨Or.inl (.unsorted (not_pairwise_of_descends lower upper hk)), ?_⟩
          show weight [wholeRange array] + 1 < _
          simp only [State.measure, weight_cons, weight_nil, Task.weight, wholeRange]
          omega
      | false =>
          refine ⟨Or.inl (.sorted (pairwise_of_ascends order (fun k lower upper => ?_))),
            Nat.succ_pos _⟩
          refine (pretested.tested rfl k lower upper).resolve_right ?_
          rintro ⟨c, hc, -⟩
          exact List.not_mem_nil hc

theorem Step.kept (order : StrictWeak comp) (sorts : Sorts sort comp) {s t : State α}
    (h : Kept comp array s) (step : Step comp sort s t) :
    Kept comp array t ∧ t.measure < s.measure := by
  have step' := step
  cases step with
  | chunk _ =>
      obtain ⟨rfl, pretested⟩ := h
      exact (Pending.step order ⟨_, _, rfl, pretested⟩ step').imp_left kept_of_pretest
  | pretested =>
      obtain ⟨rfl, pretested⟩ := h
      exact (Pending.step order ⟨_, _, rfl, pretested⟩ step').imp_left kept_of_pretest
  | @task now part before after task result bounds action =>
      obtain ⟨perm, arranged⟩ := h
      have mem : task ∈ before ++ task :: after := mem_around.mpr (Or.inl rfl)
      have inside := (arranged.inside task mem).2
      rw [slice_elements inside, Except.ok.injEq] at bounds
      subst bounds
      obtain ⟨part, tasks, rfl, replaces⟩ :=
        action.ok order sorts inside (arranged.working task mem)
      have perm' := splice_perm inside replaces.perm
      have := replaces.lighter
      refine ⟨⟨perm'.trans perm, ?_⟩, ?_⟩
      · rw [perm'.length_eq]
        exact arranged.replace replaces.perm replaces.arranged
      · simp only [resumeSort, State.measure, weight_append, weight_cons]
        omega
  | @outside now before after task fault bounds =>
      have inside := (h.2.inside task (mem_around.mpr (Or.inl rfl))).2
      rw [slice_elements inside] at bounds
      contradiction
  | sorted => exact ⟨⟨h.1, h.2.pairwise⟩, Nat.succ_pos _⟩

theorem Step.chunk_head {chunk : Chunk} {chunks : List Chunk} {cancelled : Bool}
    {result : Run (List Chunk × Bool)} (action : ChunkAction comp array cancelled chunk result) :
    ∃ t, Step comp sort (.pretesting array (chunk :: chunks) cancelled) t :=
  ⟨_, @Step.chunk _ comp sort array [] chunks chunk cancelled result action⟩

theorem Step.task_head {task : Task} {tasks : List Task} {part : List α}
    {result : Run (List α × List Task)}
    (bounds : slice array task.range.begin (task.range.begin + task.range.size) = .ok part)
    (action : TaskAction comp sort part task result) :
    ∃ t, Step comp sort (.sorting array (task :: tasks)) t :=
  ⟨_, @Step.task _ comp sort array part [] tasks task result bounds action⟩

/-- Some chunk or task can always go on. -/
theorem Kept.progress {s : State α} (h : Kept comp array s) :
    Sorted comp array s ∨ ∃ t, Step comp sort s t := by
  match s, h with
  | .pretesting _ [] _, _ => exact Or.inr ⟨_, .pretested⟩
  | .pretesting _ (.waiting _ _ :: _) _, _ => exact Or.inr (Step.chunk_head .start)
  | .pretesting _ (.running k stop _ :: _) _, _ =>
      by_cases hk : k = stop
      · exact Or.inr (Step.chunk_head (.finish hk))
      · exact Or.inr (Step.chunk_head (.test hk))
  | .sorting _ [], _ => exact Or.inr ⟨_, .sorted⟩
  | .sorting _ (⟨range, phase⟩ :: _), ⟨_, arranged⟩ =>
      have bounds := slice_elements (arranged.inside _ List.mem_cons_self).2
      cases phase with
      | waiting => exact Or.inr (Step.task_head bounds .body)
      | splitting i j => exact Or.inr (Step.task_head bounds .round)
  | .done now, h => exact Or.inl ⟨now, rfl, h⟩

theorem parallelQuickSort_ok (comp : α → α → Bool) (large : minParallelSize ≤ array.length) :
    ∃ s, parallelQuickSort comp array = .ok s ∧
      (Verdict comp array s ∨ Pending comp array s) := by
  have large : 500 ≤ array.length := large
  have inside : 0 + serialCutoff < array.length := Nat.lt_of_lt_of_le (by decide) large
  obtain ⟨descent, run, ascends, descends⟩ := serialPretest_ok comp inside
  rw [parallelQuickSort, run, ok_bind]
  cases descent with
  | true =>
      obtain ⟨k, lower, upper, hk⟩ := descends rfl
      exact ⟨_, rfl, Or.inl (.unsorted (not_pairwise_of_descends lower upper hk))⟩
  | false =>
      refine ⟨_, rfl, Or.inr ⟨_, _, rfl, ?_, fun _ k lower upper => ?_, fun h => by contradiction⟩⟩
      · intro c hc
        obtain rfl := List.mem_singleton.mp hc
        refine ⟨Nat.succ_pos _, ?_, Nat.le_refl _, ?_⟩
        · exact Nat.le_trans (show serialCutoff + 1 ≤ 500 by decide) large
        · rintro _ _ ⟨⟩
          exact Nat.lt_of_lt_of_le (by decide) large
      · obtain early | late := Nat.lt_or_ge k (serialCutoff + 1)
        · exact Or.inl (ascends rfl k lower (by omega))
        · exact Or.inr ⟨_, List.mem_cons_self, late, upper⟩

/-- `parallel_sort` gets to its first task. -/
theorem start_ok (sorts : Sorts sort comp) (array : List α) :
    ∃ s, start comp sort array = .ok s ∧ Kept comp array s := by
  rw [start]
  split
  · split
    · exact ⟨_, rfl, sorts.perm array, sorts.sorted array⟩
    · next large =>
        obtain ⟨s, run, pretest⟩ := parallelQuickSort_ok comp
          (Nat.le_of_not_lt large)
        exact ⟨s, run, kept_of_pretest pretest⟩
  · next empty =>
      obtain rfl := List.eq_nil_of_length_eq_zero (Nat.eq_zero_of_not_pos empty)
      exact ⟨_, rfl, List.Perm.refl _, List.Pairwise.nil⟩

theorem Kept.inevitable (order : StrictWeak comp) (sorts : Sorts sort comp) {s : State α}
    (h : Kept comp array s) : Inevitable (Step comp sort) (Sorted comp array) s :=
  .of_measure State.measure (fun _ h => h.progress.imp_right
    (fun next => ⟨next, fun _ step => step.kept order sorts h⟩)) h

theorem Sorted.final {s : State α} (h : Sorted comp array s) (t : State α) :
    ¬ Step comp sort s t := by
  obtain ⟨now, rfl, -⟩ := h
  intro step
  cases step

/-- No fault, no schedule without an end, and a sorted permutation at the end of each. -/
theorem every_schedule_sorts (order : StrictWeak comp) (sorts : Sorts sort comp)
    (array : List α) :
    ∃ s, start comp sort array = .ok s ∧
      (∀ run : Nat → State α, run 0 = s → ∃ n, ¬ Step comp sort (run n) (run (n + 1))) ∧
      ∀ t, ReflTransGen (Step comp sort) s t → (∀ u, ¬ Step comp sort t u) →
        Sorted comp array t := by
  obtain ⟨s, run, kept⟩ := start_ok sorts array
  have inevitable := kept.inevitable order sorts
  exact ⟨s, run, inevitable.finite fun _ => Sorted.final,
    fun t => inevitable.of_stuck fun _ => Sorted.final⟩

theorem mergeSort_sorts : Sorts (List.mergeSort · (fun a b => !decide (b < a)))
    (fun a b : Nat => decide (a < b)) where
  perm l := List.mergeSort_perm l _
  sorted l := by
    refine (List.pairwise_mergeSort ?_ ?_ l).imp (fun h => by simpa using h)
    · intro a b c hab hbc
      simp only [Bool.not_eq_true', decide_eq_false_iff_not] at *
      omega
    · intro a b
      simp only [Bool.or_eq_true, Bool.not_eq_true', decide_eq_false_iff_not]
      omega

theorem every_schedule_sorts_descending :
    ∃ s, start (fun a b : Nat => decide (a < b)) (List.mergeSort · (fun a b => !decide (b < a)))
        (List.range 1000).reverse = .ok s ∧
      (∀ run : Nat → State Nat, run 0 = s → ∃ n, ¬ Step (fun a b : Nat => decide (a < b))
        (List.mergeSort · (fun a b => !decide (b < a))) (run n) (run (n + 1))) ∧
      ∀ t, ReflTransGen (Step (fun a b : Nat => decide (a < b))
          (List.mergeSort · (fun a b => !decide (b < a)))) s t →
        (∀ u, ¬ Step (fun a b : Nat => decide (a < b))
          (List.mergeSort · (fun a b => !decide (b < a))) t u) →
        Sorted (fun a b : Nat => decide (a < b)) (List.range 1000).reverse t :=
  every_schedule_sorts strictWeak_lt mergeSort_sorts _

/-- What a run of the tasks to their end makes of `array`. -/
def Outcome (comp : α → α → Bool) (sort : List α → List α) (array result : List α) : Prop :=
  ∃ s, start comp sort array = .ok s ∧ ReflTransGen (Step comp sort) s (.done result)

theorem Outcome.sorted {result : List α} (order : StrictWeak comp) (sorts : Sorts sort comp)
    (h : Outcome comp sort array result) :
    result.Perm array ∧ result.Pairwise (fun x y => comp y x = false) := by
  obtain ⟨s, run, steps⟩ := h
  obtain ⟨s', run', kept⟩ := start_ok sorts array
  obtain rfl := Except.ok.inj (run.symm.trans run')
  obtain ⟨now, same, sorted⟩ := (kept.inevitable order sorts).of_stuck (fun _ => Sorted.final)
    steps (fun u step => by cases step)
  obtain rfl := State.done.inj same
  exact sorted

theorem Pending.inevitable (order : StrictWeak comp) (sort : List α → List α) {s : State α}
    (h : Verdict comp array s ∨ Pending comp array s) :
    Inevitable (Step comp sort) (Verdict comp array) s := by
  let inv (t : State α) : Prop := Verdict comp array t ∨ Pending comp array t
  have init : inv s := h
  refine .of_measure State.measure (fun t h => h.imp_right (fun pending => ?_)) init
  obtain ended | next := pending.kept.progress
  · obtain ⟨_, _, rfl, -⟩ := pending
    obtain ⟨_, same, -⟩ := ended
    cases same
  · exact ⟨next, fun u step => pending.step order step⟩

theorem start_large (comp : α → α → Bool) (sort : List α → List α)
    (large : minParallelSize ≤ array.length) :
    start comp sort array = parallelQuickSort comp array := by
  have nonempty : 0 < array.length := Nat.lt_of_lt_of_le (by decide) large
  rw [start, if_pos nonempty, if_neg (Nat.not_lt_of_le large)]

theorem Verdict.unique {s t : State α} (h : Verdict comp array s) (h' : Verdict comp array t) :
    s = t := by
  cases h with
  | sorted _ =>
      cases h' with
      | sorted _ => rfl
      | unsorted _ => contradiction
  | unsorted _ =>
      cases h' with
      | sorted _ => contradiction
      | unsorted _ => rfl

/-- Which way the pretest decides is not up to the schedule: every one either still tests
and can come to the one verdict, or has gone on from it. -/
theorem every_schedule_decides (order : StrictWeak comp) (sort : List α → List α)
    (large : minParallelSize ≤ array.length) :
    ∃ s verdict, start comp sort array = .ok s ∧ Verdict comp array verdict ∧
      ∀ t, ReflTransGen (Step comp sort) s t →
        (∃ chunks cancelled, t = .pretesting array chunks cancelled) ∧
            ReflTransGen (Step comp sort) t verdict ∨
          ReflTransGen (Step comp sort) verdict t := by
  obtain ⟨s, run, init⟩ := parallelQuickSort_ok comp large
  obtain ⟨verdict, reached, hverdict⟩ := (Pending.inevitable order sort init).reachable
  refine ⟨s, verdict, (start_large comp sort large).trans run, hverdict, fun t steps => ?_⟩
  have decided : Pending comp array t ∨ ReflTransGen (Step comp sort) verdict t := by
    induction steps with
    | refl =>
        obtain came | pending := init
        · obtain rfl := came.unique hverdict
          exact Or.inr .refl
        · exact Or.inl pending
    | tail _ last ih =>
        obtain pending | beyond := ih
        · obtain came | pending := (pending.step order last).1
          · obtain rfl := came.unique hverdict
            exact Or.inr .refl
          · exact Or.inl pending
        · exact Or.inr (beyond.tail last)
  refine decided.imp_left fun pending => ?_
  obtain ⟨verdict', ahead, hverdict'⟩ := (Pending.inevitable order sort (Or.inr pending)).reachable
  obtain ⟨chunks, cancelled, rfl, -⟩ := pending
  exact ⟨⟨chunks, cancelled, rfl⟩, hverdict'.unique hverdict ▸ ahead⟩

/-- An array whose one descent is at its end, far behind what is tested serially. -/
theorem every_schedule_decides_late :
    ∃ s verdict, start (fun a b : Nat => decide (a < b)) id (List.range 1000 ++ [0]) = .ok s ∧
      Verdict (fun a b : Nat => decide (a < b)) (List.range 1000 ++ [0]) verdict ∧
      ∀ t, ReflTransGen (Step (fun a b : Nat => decide (a < b)) id) s t →
        (∃ chunks cancelled, t = .pretesting (List.range 1000 ++ [0]) chunks cancelled) ∧
            ReflTransGen (Step (fun a b : Nat => decide (a < b)) id) t verdict ∨
          ReflTransGen (Step (fun a b : Nat => decide (a < b)) id) verdict t :=
  every_schedule_decides strictWeak_lt id (by simp [minParallelSize])

end ParallelSort
