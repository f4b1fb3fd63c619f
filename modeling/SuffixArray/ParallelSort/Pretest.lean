import Mathlib.Algebra.Ring.Nat
import SuffixArray.ParallelSort

/-!
# The pretest

Chunks of the array are looked through side by side for two neighbours out of order. The
first find cancels the group, which the chunks may notice late or never. As long as
nothing is cancelled, what no chunk holds any more has been tested.
-/

namespace ParallelSort

open Checked

variable {α : Type} {comp : α → α → Bool} {array : List α}

/-- The element `k` is not smaller than the one in front of it. -/
def Ascends (comp : α → α → Bool) (array : List α) (k : Nat) : Prop :=
  descends comp array k = .ok false

theorem descends_ok (comp : α → α → Bool) {k : Nat} (lower : 0 < k) (upper : k < array.length) :
    descends comp array k = .ok (comp array[k] array[k - 1]) := by
  rw [descends, sub_of_le lower, ok_bind, load_of_lt upper, ok_bind, load_of_lt (by omega),
    ok_bind, pure_eq_ok]

def Chunk.first : Chunk → Nat
  | .waiting begin _ => begin
  | .running k _ _ => k

def Chunk.stop : Chunk → Nat
  | .waiting _ stop => stop
  | .running _ stop _ => stop

def Chunk.Covers (chunk : Chunk) (k : Nat) : Prop := chunk.first ≤ k ∧ k < chunk.stop

def Chunk.weight : Chunk → Nat
  | .waiting begin stop => 4 * (stop - begin) - 1
  | .running k stop _ => stop - k + 1

def chunksWeight (chunks : List Chunk) : Nat := (chunks.map Chunk.weight).sum

@[simp] theorem chunksWeight_nil : chunksWeight [] = 0 := rfl

@[simp] theorem chunksWeight_cons (chunk : Chunk) (chunks : List Chunk) :
    chunksWeight (chunk :: chunks) = chunk.weight + chunksWeight chunks := rfl

@[simp] theorem chunksWeight_append (chunks rest : List Chunk) :
    chunksWeight (chunks ++ rest) = chunksWeight chunks + chunksWeight rest := by
  rw [chunksWeight, List.map_append, List.sum_append]
  rfl

/-- A waiting chunk is never empty. -/
structure Chunk.Sound (array : List α) (chunk : Chunk) : Prop where
  positive : 0 < chunk.first
  order : chunk.first ≤ chunk.stop
  bound : chunk.stop ≤ array.length
  waiting : ∀ begin stop, chunk = .waiting begin stop → begin < stop

/-- Whatever has been tested ascends as long as nothing is cancelled. -/
structure Pretested (comp : α → α → Bool) (array : List α) (chunks : List Chunk)
    (cancelled : Bool) : Prop where
  sound : ∀ c ∈ chunks, c.Sound array
  tested : cancelled = false → ∀ k, 0 < k → k < array.length →
    Ascends comp array k ∨ ∃ c ∈ chunks, c.Covers k
  found : cancelled = true → ∃ k, 0 < k ∧ k < array.length ∧ ¬ Ascends comp array k

/-- What an action has to establish for its chunk. -/
structure Tests (comp : α → α → Bool) (array : List α) (chunk : Chunk) (cancelled : Bool)
    (chunks : List Chunk) (cancelled' : Bool) : Prop where
  sound : ∀ c ∈ chunks, c.Sound array
  tested : cancelled' = false → cancelled = false ∧
    ∀ k, chunk.Covers k → Ascends comp array k ∨ ∃ c ∈ chunks, c.Covers k
  found : cancelled' = true →
    cancelled = true ∨ ∃ k, 0 < k ∧ k < array.length ∧ ¬ Ascends comp array k
  lighter : chunksWeight chunks < chunk.weight

theorem Tests.of_cancelled {chunk : Chunk} (lighter : 0 < chunk.weight) :
    Tests comp array chunk true [] true where
  sound := by simp
  tested h := by contradiction
  found _ := Or.inl rfl
  lighter := lighter

theorem ChunkAction.ok {chunk : Chunk} {cancelled : Bool}
    {result : Run (List Chunk × Bool)} (sound : chunk.Sound array)
    (action : ChunkAction comp array cancelled chunk result) :
    ∃ chunks cancelled', result = .ok (chunks, cancelled') ∧
      Tests comp array chunk cancelled chunks cancelled' := by
  obtain ⟨positive, order, bound, waiting⟩ := sound
  cases action with
  | @split begin stop two =>
      dsimp only [Chunk.first, Chunk.stop] at positive order bound
      refine ⟨_, _, rfl, ?_, fun h => ⟨h, fun k hk => Or.inr ?_⟩, Or.inl, ?_⟩
      · intro c hc
        simp only [List.mem_cons, List.not_mem_nil, or_false] at hc
        obtain rfl | rfl := hc
        · refine ⟨positive, ?_, ?_, ?_⟩
          · exact Nat.le_add_right _ _
          · dsimp only [Chunk.stop]; omega
          · rintro _ _ ⟨⟩; omega
        · refine ⟨?_, ?_, bound, ?_⟩
          · exact Nat.lt_of_lt_of_le positive (Nat.le_add_right _ _)
          · dsimp only [Chunk.first, Chunk.stop]; omega
          · rintro _ _ ⟨⟩; omega
      · obtain left | right := Nat.lt_or_ge k (begin + (stop - begin) / 2)
        · exact ⟨_, List.mem_cons_self, hk.1, left⟩
        · exact ⟨_, List.mem_cons_of_mem _ List.mem_cons_self, right, hk.2⟩
      · simp only [chunksWeight_cons, chunksWeight_nil, Chunk.weight]
        omega
  | @start begin stop =>
      have nonempty := waiting begin stop rfl
      refine ⟨_, _, rfl, ?_, fun h => ⟨h, fun k hk => Or.inr ⟨_, List.mem_cons_self, hk⟩⟩,
        Or.inl, ?_⟩
      · intro c hc
        obtain rfl := List.mem_singleton.mp hc
        exact ⟨positive, order, bound, by rintro _ _ ⟨⟩⟩
      · simp only [chunksWeight_cons, chunksWeight_nil, Chunk.weight]
        omega
  | @drop begin stop hc =>
      have nonempty := waiting begin stop rfl
      subst hc
      exact ⟨_, _, rfl, .of_cancelled (by dsimp only [Chunk.weight]; omega)⟩
  | @finish k stop i hk =>
      subst hk
      refine ⟨_, _, rfl, by simp, fun h => ⟨h, fun k hk => ?_⟩, Or.inl, Nat.succ_pos _⟩
      exact absurd hk.1 (Nat.not_le_of_lt hk.2)
  | @leave k stop i hk _ hc =>
      subst hc
      exact ⟨_, _, rfl, .of_cancelled (Nat.succ_pos _)⟩
  | @test k stop i hk =>
      dsimp only [Chunk.first, Chunk.stop] at positive order bound
      have inside : k < array.length := by omega
      have run := descends_ok comp positive inside
      rw [pretest, run, ok_bind]
      cases hdesc : comp array[k] array[k - 1] with
      | true =>
          rw [hdesc] at run
          refine ⟨_, _, rfl, by simp, fun h => by contradiction, fun _ => Or.inr ?_,
            Nat.succ_pos _⟩
          exact ⟨k, positive, inside, fun h => by rw [Ascends, run] at h; contradiction⟩
      | false =>
          rw [hdesc] at run
          refine ⟨_, _, rfl, ?_, fun h => ⟨h, fun m hm => ?_⟩, Or.inl, ?_⟩
          · intro c hc
            obtain rfl := List.mem_singleton.mp hc
            refine ⟨Nat.succ_pos k, ?_, bound, by rintro _ _ ⟨⟩⟩
            exact Nat.succ_le_of_lt (Nat.lt_of_le_of_ne order hk)
          · obtain rfl | later := Nat.eq_or_lt_of_le hm.1
            · exact Or.inl run
            · exact Or.inr ⟨_, List.mem_cons_self, later, hm.2⟩
          · simp only [chunksWeight_cons, chunksWeight_nil, Chunk.weight]
            omega

/-- The part of a chunk is taken by the chunks it leaves. -/
theorem Pretested.replace {before after chunks : List Chunk} {chunk : Chunk}
    {cancelled cancelled' : Bool}
    (h : Pretested comp array (before ++ chunk :: after) cancelled)
    (tests : Tests comp array chunk cancelled chunks cancelled') :
    Pretested comp array (before ++ chunks ++ after) cancelled' where
  sound := by
    intro c hc
    simp only [List.mem_append] at hc
    obtain (hc | hc) | hc := hc
    · exact h.sound c (List.mem_append_left _ hc)
    · exact tests.sound c hc
    · exact h.sound c (List.mem_append_right _ (List.mem_cons_of_mem _ hc))
  tested := by
    intro off k lower upper
    obtain ⟨off', covered⟩ := tests.tested off
    obtain done | ⟨c, hc, hk⟩ := h.tested off' k lower upper
    · exact Or.inl done
    · have keep : ∀ c, c ∈ before ++ chunks ++ after → c.Covers k →
          Ascends comp array k ∨ ∃ c ∈ before ++ chunks ++ after, c.Covers k :=
        fun c hc hk => Or.inr ⟨c, hc, hk⟩
      simp only [List.mem_append, List.mem_cons] at hc
      obtain hc | rfl | hc := hc
      · exact keep c (List.mem_append_left _ (List.mem_append_left _ hc)) hk
      · refine (covered k hk).imp_right ?_
        rintro ⟨c, hc, hk⟩
        exact ⟨c, List.mem_append_left _ (List.mem_append_right _ hc), hk⟩
      · exact keep c (List.mem_append_right _ hc) hk
  found := fun on => (tests.found on).elim h.found id

theorem pairwise_of_ascends (order : StrictWeak comp)
    (all : ∀ k, 0 < k → k < array.length → Ascends comp array k) :
    array.Pairwise (fun x y => comp y x = false) := by
  have : IsTrans α (fun x y => comp y x = false) := ⟨fun _ _ _ => order.trans⟩
  rw [← List.isChain_iff_pairwise, List.isChain_iff_getElem]
  intro k hk
  have run := all (k + 1) (Nat.succ_pos k) hk
  rw [Ascends, descends_ok comp (Nat.succ_pos k) hk, Except.ok.injEq] at run
  exact run

theorem not_pairwise_of_descends {k : Nat} (lower : 0 < k) (upper : k < array.length)
    (h : ¬ Ascends comp array k) : ¬ array.Pairwise (fun x y => comp y x = false) := by
  intro sorted
  refine h ?_
  rw [Ascends, descends_ok comp lower upper, Except.ok.injEq]
  exact List.pairwise_iff_getElem.mp sorted (k - 1) k (by omega) upper (by omega)

/-- The serial loop tests the neighbours from its first element on. -/
theorem serialPretest_ok (comp : α → α → Bool) {k left : Nat} (inside : k + left < array.length) :
    ∃ descent, serialPretest comp array k left = .ok descent ∧
      (descent = false → ∀ m, k < m → m ≤ k + left → Ascends comp array m) ∧
      (descent = true → ∃ m, 0 < m ∧ m < array.length ∧ ¬ Ascends comp array m) := by
  induction left generalizing k with
  | zero =>
      refine ⟨false, rfl, fun _ m lower upper => ?_, fun h => by contradiction⟩
      omega
  | succ left ih =>
      have next : k + 1 < array.length := by omega
      have run := descends_ok comp (Nat.succ_pos k) next
      rw [serialPretest, run, ok_bind]
      cases hdesc : comp array[k + 1] array[k] with
      | true =>
          refine ⟨true, if_pos hdesc, fun h => by contradiction, fun _ => ?_⟩
          refine ⟨k + 1, Nat.succ_pos k, next, fun h => ?_⟩
          rw [Ascends, run, Except.ok.injEq] at h
          exact Bool.noConfusion (hdesc.symm.trans h)
      | false =>
          obtain ⟨descent, rest, ascends, descends⟩ := ih (k := k + 1) (by omega)
          refine ⟨descent, ?_, fun h m lower upper => ?_, descends⟩
          · exact (if_neg (fun h => Bool.noConfusion (hdesc.symm.trans h))).trans rest
          · obtain rfl | later := Nat.eq_or_lt_of_le (Nat.succ_le_of_lt lower)
            · exact run.trans (congrArg Except.ok hdesc)
            · exact ascends h m later (by omega)

end ParallelSort
