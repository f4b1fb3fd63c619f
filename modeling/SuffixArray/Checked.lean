import Mathlib.Algebra.Group.Nat.Defs
import Mathlib.Data.List.Basic

/-!
# Checked runs of imperative code over vectors and machine words

A run either returns or stops at the first subscript outside its vector, at the
first counter that leaves its word, or when a loop has used up the iterations it
was given. A proof that a run returns is therefore at once a proof that none of
these happened on the way.

Vectors are lists and words are natural numbers; the word width is an argument
of the two counter operations only. The loop rules take an invariant indexed by
the loop counter and ask for one iteration at a time.

`Ensures` speaks of what a run returns without asking that it does, and `RefinedBy`
of two runs the second of which returns whatever the first one returns.
-/

namespace Checked

variable {α β σ : Type}

/-- What can stop a run before it returns. -/
inductive Fault where
  /-- A subscript or a dereference outside the vector. -/
  | outOfRange
  /-- A counter stepped below zero or past the largest word. -/
  | wrapped
  /-- A loop was cut off before its exit test succeeded. -/
  | exhausted
  deriving DecidableEq, Repr

abbrev Run (α : Type) : Type := Except Fault α

@[simp] theorem ok_bind (a : α) (f : α → Run β) :
    (Except.ok a : Run α) >>= f = f a := rfl

@[simp] theorem pure_eq_ok (a : α) : (pure a : Run α) = .ok a := rfl

@[simp] theorem error_bind (e : Fault) (f : α → Run β) :
    (Except.error e : Run α) >>= f = .error e := rfl

/-- `xs[i]` read as a value. -/
def load (xs : List α) (i : Nat) : Run α :=
  match xs[i]? with
  | some x => .ok x
  | none => .error .outOfRange

/-- `xs[i] = x`. -/
def store (xs : List α) (i : Nat) (x : α) : Run (List α) :=
  if i < xs.length then .ok (xs.set i x) else .error .outOfRange

/-- `i + k` on `w`-bit words, as far as it stays a sum. -/
def add (w i k : Nat) : Run Nat :=
  if i + k < 2 ^ w then .ok (i + k) else .error .wrapped

/-- `++i` on a `w`-bit counter. -/
def inc (w i : Nat) : Run Nat := add w i 1

/-- `i - k` on unsigned words, as far as it stays a difference. -/
def sub (i k : Nat) : Run Nat :=
  if k ≤ i then .ok (i - k) else .error .wrapped

/-- The elements from iterator `first` up to iterator `last`. -/
def slice (xs : List α) (first last : Nat) : Run (List α) :=
  if first ≤ last ∧ last ≤ xs.length then .ok ((xs.drop first).take (last - first))
  else .error .outOfRange

/-- `std::equal` on the `rest` elements from `first` and from `first'` on. -/
def equalFrom [DecidableEq α] (xs : List α) : (rest first first' : Nat) → Run Bool
  | 0, _, _ => return true
  | rest + 1, first, first' => do
    let x ← load xs first
    let y ← load xs first'
    if x = y then equalFrom xs rest (first + 1) (first' + 1) else return false

/-- `std::equal` on two ranges of a vector. Of random access iterators it looks at the distances
first, and where these differ nothing is read. -/
def equalRanges [DecidableEq α] (xs : List α) (first last first' last' : Nat) : Run Bool := do
  if first + last' = first' + last then
    let rest ← sub last first
    equalFrom xs rest first first'
  else
    return false

/-- `i - 1` on `w`-bit words with the wrap left in. -/
def wrappingPred (w i : Nat) : Nat := (i + (2 ^ w - 1)) % 2 ^ w

theorem load_eq_ok {xs : List α} {i : Nat} {x : α} : load xs i = .ok x ↔ xs[i]? = some x := by
  unfold load
  cases xs[i]? <;> simp

theorem load_of_lt {xs : List α} {i : Nat} (h : i < xs.length) : load xs i = .ok xs[i] :=
  load_eq_ok.mpr (List.getElem?_eq_getElem h)

theorem load_of_le {xs : List α} {i : Nat} (h : xs.length ≤ i) :
    load xs i = .error .outOfRange := by
  simp only [load, List.getElem?_eq_none h]

theorem store_of_lt {xs : List α} {i : Nat} (h : i < xs.length) (x : α) :
    store xs i x = .ok (xs.set i x) := if_pos h

theorem add_of_lt {w i k : Nat} (h : i + k < 2 ^ w) : add w i k = .ok (i + k) := if_pos h

theorem inc_of_lt {w i : Nat} (h : i + 1 < 2 ^ w) : inc w i = .ok (i + 1) := if_pos h

theorem sub_of_le {i k : Nat} (h : k ≤ i) : sub i k = .ok (i - k) := if_pos h

theorem slice_of_le {xs : List α} {first last : Nat} (order : first ≤ last)
    (bound : last ≤ xs.length) :
    slice xs first last = .ok ((xs.drop first).take (last - first)) := if_pos ⟨order, bound⟩

section Equal

variable [DecidableEq α] {xs : List α} {first last first' last' : Nat}

theorem equalFrom_eq {rest : Nat} (bound : first + rest ≤ xs.length)
    (bound' : first' + rest ≤ xs.length) : equalFrom xs rest first first' =
      .ok (decide ((xs.drop first).take rest = (xs.drop first').take rest)) := by
  induction rest generalizing first first' with
  | zero => rw [equalFrom, List.take_zero, List.take_zero, decide_eq_true rfl, pure_eq_ok]
  | succ rest ih =>
      have hfirst : first < xs.length := by omega
      have hfirst' : first' < xs.length := by omega
      rw [equalFrom, load_of_lt hfirst, ok_bind, load_of_lt hfirst', ok_bind,
        List.drop_eq_getElem_cons hfirst, List.drop_eq_getElem_cons hfirst', List.take_succ_cons,
        List.take_succ_cons]
      by_cases same : xs[first] = xs[first']
      · rw [if_pos same, ih (by omega) (by omega)]
        simp only [List.cons.injEq, same, true_and]
      · rw [if_neg same, decide_eq_false (fun h => same (List.cons.inj h).1), pure_eq_ok]

theorem equalRanges_eq (order : first ≤ last) (bound : last ≤ xs.length)
    (order' : first' ≤ last') (bound' : last' ≤ xs.length) :
    equalRanges xs first last first' last' = .ok (decide ((xs.drop first).take (last - first) =
      (xs.drop first').take (last' - first'))) := by
  rw [equalRanges]
  by_cases lengths : first + last' = first' + last
  · have same : last' - first' = last - first := by omega
    rw [if_pos lengths, sub_of_le order, ok_bind, same, equalFrom_eq (by omega) (by omega)]
  · rw [if_neg lengths, decide_eq_false, pure_eq_ok]
    intro equal
    have := congrArg List.length equal
    rw [List.length_take, List.length_take, List.length_drop, List.length_drop] at this
    omega

end Equal

@[simp] theorem wrappingPred_zero (w : Nat) : wrappingPred w 0 = 2 ^ w - 1 := by
  have : 0 < 2 ^ w := Nat.two_pow_pos w
  exact (congrArg (· % 2 ^ w) (Nat.zero_add _)).trans (Nat.mod_eq_of_lt (by omega))

theorem wrappingPred_succ {w i : Nat} (h : i < 2 ^ w) : wrappingPred w (i + 1) = i := by
  have : i + 1 + (2 ^ w - 1) = i + 2 ^ w := by omega
  rw [wrappingPred, this, Nat.add_mod_right, Nat.mod_eq_of_lt h]

theorem sub_eq_ok {i k x : Nat} : sub i k = .ok x ↔ k ≤ i ∧ i - k = x := by
  rw [sub]
  split
  · next h => rw [Except.ok.injEq, and_iff_right h]
  · next h => exact iff_of_false (fun run => nomatch run) (fun h' => h h'.1)

theorem add_eq_ok {w i k x : Nat} : add w i k = .ok x ↔ i + k < 2 ^ w ∧ i + k = x := by
  rw [add]
  split
  · next h => rw [Except.ok.injEq, and_iff_right h]
  · next h => exact iff_of_false (fun run => nomatch run) (fun h' => h h'.1)

theorem store_eq_ok {xs ys : List α} {i : Nat} {x : α} :
    store xs i x = .ok ys ↔ i < xs.length ∧ xs.set i x = ys := by
  rw [store]
  split
  · next h => rw [Except.ok.injEq, and_iff_right h]
  · next h => exact iff_of_false (fun run => nomatch run) (fun h' => h h'.1)

theorem bind_eq_ok {r : Run α} {f : α → Run β} {b : β} :
    r >>= f = .ok b ↔ ∃ a, r = .ok a ∧ f a = .ok b := by
  constructor
  · intro run
    cases hr : r with
    | error e =>
        rw [hr] at run
        exact nomatch run
    | ok a =>
        rw [hr] at run
        exact ⟨a, rfl, run⟩
  · rintro ⟨a, rfl, run⟩
    exact run

/-- What `r` returns satisfies `P`, should it return. -/
def Ensures (r : Run α) (P : α → Prop) : Prop := ∀ a, r = .ok a → P a

namespace Ensures

variable {P Q : α → Prop} {R : β → Prop} {r : Run α} {f : α → Run β}

theorem pure {a : α} (h : P a) : Ensures (.ok a) P := fun _ run => Except.ok.inj run ▸ h

theorem mono (h : Ensures r P) (post : ∀ a, P a → Q a) : Ensures r Q :=
  fun a run => post a (h a run)

theorem bind (h : Ensures r P) (next : ∀ a, P a → Ensures (f a) R) : Ensures (r >>= f) R := by
  intro b run
  obtain ⟨a, hr, hf⟩ := bind_eq_ok.mp run
  exact next a (h a hr) b hf

/-- The first part need only return. -/
theorem bind_any (next : ∀ a, r = .ok a → Ensures (f a) R) : Ensures (r >>= f) R :=
  bind (P := fun a => r = .ok a) (fun _ run => run) next

theorem ite {c : Prop} [Decidable c] {r' : Run α} (yes : c → Ensures r P)
    (no : ¬ c → Ensures r' P) : Ensures (if c then r else r') P := by
  split
  · next h => exact yes h
  · next h => exact no h

theorem foldlM {ι : Type} (inv : σ → Prop) {body : σ → ι → Run σ} {indices : List ι} {s : σ}
    (init : inv s) (step : ∀ i s, inv s → Ensures (body s i) inv) :
    Ensures (indices.foldlM body s) inv := by
  induction indices generalizing s with
  | nil => exact pure init
  | cons i indices ih =>
      rw [List.foldlM_cons]
      exact bind (step i s init) (fun _ h => ih h)

end Ensures

/-- `for (i = start ; i < stop ; ++i)` on a `w`-bit counter. -/
def forUp (w start stop : Nat) (body : Nat → σ → Run σ) (s : σ) : Run σ :=
  (List.range' start (stop - start)).foldlM (fun s i => do
    let s ← body i s
    let _ ← inc w i
    return s) s

/-- `for (i = start ; i > stop ; --i)`. No iteration decrements a zero counter. -/
def forDown (start stop : Nat) (body : Nat → σ → Run σ) (s : σ) : Run σ :=
  (List.range' (stop + 1) (start - stop)).reverse.foldlM (fun s i => body i s) s

/-- Every index of a vector of `count` elements, front to back. -/
def forSlots (count : Nat) (body : Nat → σ → Run σ) (s : σ) : Run σ :=
  (List.range count).foldlM (fun s i => body i s) s

/-- `for (i = count - 1 ; i != -1 ; --i)`. The counter passes zero on purpose and
the test made right after ends the loop. Reverse iterators visit the same indices. -/
def forSlotsDown (count : Nat) (body : Nat → σ → Run σ) (s : σ) : Run σ :=
  (List.range count).reverse.foldlM (fun s i => body i s) s

/-- `for (i = start ; i != -1 ; --i)` as the machine counts: `i` is a `w`-bit word, and it
is the step from zero that brings it to the value which ends the loop. -/
def forDownWrapping (w : Nat) (body : Nat → σ → Run σ) : (fuel i : Nat) → σ → Run σ
  | fuel, i, s =>
    if i = 2 ^ w - 1 then
      return s
    else
      match fuel with
      | 0 => .error .exhausted
      | fuel + 1 => do
        let s ← body i s
        forDownWrapping w body fuel (wrappingPred w i) s

/-- One iteration preserves the invariant, so the whole loop does. -/
theorem foldlM_range_ok (inv : Nat → σ → Prop) (body : σ → Nat → Run σ) (count : Nat) :
    ∀ (start : Nat) (s : σ), inv start s →
      (∀ i s, start ≤ i → i < start + count → inv i s →
        ∃ t, body s i = .ok t ∧ inv (i + 1) t) →
      ∃ t, (List.range' start count).foldlM body s = .ok t ∧ inv (start + count) t := by
  induction count with
  | zero => exact fun start s hs _ => ⟨s, rfl, hs⟩
  | succ count ih =>
      intro start s hs step
      obtain ⟨middle, first, hmiddle⟩ := step start s (Nat.le_refl _) (by omega) hs
      obtain ⟨t, rest, ht⟩ := ih (start + 1) middle hmiddle
        (fun i s hlo hhi => step i s (by omega) (by omega))
      refine ⟨t, ?_, by rwa [show start + (count + 1) = start + 1 + count by omega]⟩
      rw [List.range'_succ, List.foldlM_cons, first, ok_bind, rest]

theorem forUp_ok (inv : Nat → σ → Prop) {w start stop : Nat} {body : Nat → σ → Run σ} {s : σ}
    (order : start ≤ stop) (fits : stop < 2 ^ w) (init : inv start s)
    (step : ∀ i s, start ≤ i → i < stop → inv i s → ∃ t, body i s = .ok t ∧ inv (i + 1) t) :
    ∃ t, forUp w start stop body s = .ok t ∧ inv stop t := by
  have bound : start + (stop - start) = stop := by omega
  obtain ⟨t, run, ht⟩ := foldlM_range_ok inv (fun s i => do
      let s ← body i s
      let _ ← inc w i
      return s) (stop - start) start s init (by
    intro i s hlo hhi hs
    obtain ⟨t, first, ht⟩ := step i s hlo (by omega) hs
    refine ⟨t, ?_, ht⟩
    rw [first, ok_bind, inc_of_lt (by omega), ok_bind, pure_eq_ok])
  exact ⟨t, run, by rwa [bound] at ht⟩

/-- A loop does not return if one of its iterations never does. -/
theorem forUp_ne_ok {w start stop k : Nat} {body : Nat → σ → Run σ} (lower : start ≤ k)
    (upper : k < stop) (stuck : ∀ s t, body k s ≠ .ok t) (s t : σ) :
    forUp w start stop body s ≠ .ok t := by
  have hmem : k ∈ List.range' start (stop - start) := by
    rw [List.mem_range'_1]
    omega
  rw [forUp]
  generalize List.range' start (stop - start) = indices at hmem
  induction indices generalizing s with
  | nil => exact absurd hmem List.not_mem_nil
  | cons i indices ih =>
      intro run
      rw [List.foldlM_cons] at run
      obtain ⟨middle, iteration, rest⟩ := bind_eq_ok.mp run
      obtain ⟨middle', hbody, -⟩ := bind_eq_ok.mp iteration
      obtain rfl | hmem := List.mem_cons.mp hmem
      · exact stuck s middle' hbody
      · exact ih middle hmem rest

/-- A loop ends where an iteration does. -/
theorem forUp_error {w start stop k : Nat} {body : Nat → σ → Run σ} {s t : σ} {e : Fault}
    (lower : start ≤ k) (upper : k < stop) (before : forUp w start k body s = .ok t)
    (stuck : body k t = .error e) : forUp w start stop body s = .error e := by
  have split : List.range' start (stop - start) =
      List.range' start (k - start) ++ k :: List.range' (k + 1) (stop - (k + 1)) := by
    obtain ⟨m, rfl⟩ := Nat.exists_eq_add_of_le lower
    obtain ⟨n, rfl⟩ := Nat.exists_eq_add_of_lt upper
    rw [← List.range'_succ, Nat.add_sub_cancel_left, List.range'_append_1]
    congr 1
    omega
  rw [forUp] at before
  rw [forUp, split, List.foldlM_append, before, ok_bind, List.foldlM_cons, stuck]
  rfl

namespace Ensures

/-- What one iteration keeps, a loop that returns has kept. -/
theorem forUp (inv : σ → Prop) {w start stop : Nat} {body : Nat → σ → Run σ} {s : σ}
    (init : inv s) (step : ∀ i s, inv s → Ensures (body i s) inv) :
    Ensures (forUp w start stop body s) inv :=
  foldlM inv init (fun i s hs =>
    bind (step i s hs) (fun _ ht => bind_any (fun _ _ => pure ht)))

theorem forDown (inv : σ → Prop) {start stop : Nat} {body : Nat → σ → Run σ} {s : σ}
    (init : inv s) (step : ∀ i s, inv s → Ensures (body i s) inv) :
    Ensures (forDown start stop body s) inv := foldlM inv init step

theorem forSlots (inv : σ → Prop) {count : Nat} {body : Nat → σ → Run σ} {s : σ}
    (init : inv s) (step : ∀ i s, inv s → Ensures (body i s) inv) :
    Ensures (forSlots count body s) inv := foldlM inv init step

theorem forSlotsDown (inv : σ → Prop) {count : Nat} {body : Nat → σ → Run σ} {s : σ}
    (init : inv s) (step : ∀ i s, inv s → Ensures (body i s) inv) :
    Ensures (forSlotsDown count body s) inv := foldlM inv init step

end Ensures

theorem forSlots_ok (inv : Nat → σ → Prop) {count : Nat} {body : Nat → σ → Run σ} {s : σ}
    (init : inv 0 s)
    (step : ∀ i s, i < count → inv i s → ∃ t, body i s = .ok t ∧ inv (i + 1) t) :
    ∃ t, forSlots count body s = .ok t ∧ inv count t := by
  have loop := foldlM_range_ok inv (fun s i => body i s) count 0 s init
    (fun i s _ hhi hs => step i s (by omega) hs)
  rwa [Nat.zero_add, ← List.range_eq_range'] at loop

/-- The downward loops keep the invariant of the largest counter still to visit. -/
theorem foldlM_reverse_ok (inv : Nat → σ → Prop) (body : σ → Nat → Run σ)
    (count : Nat) :
    ∀ (start : Nat) (s : σ), inv (start + count) s →
      (∀ i s, start ≤ i → i < start + count → inv (i + 1) s →
        ∃ t, body s i = .ok t ∧ inv i t) →
      ∃ t, (List.range' start count).reverse.foldlM body s = .ok t ∧ inv start t := by
  induction count with
  | zero => exact fun start s hs _ => ⟨s, rfl, hs⟩
  | succ count ih =>
      intro start s hs step
      obtain ⟨middle, first, hmiddle⟩ := step (start + count) s (by omega) (by omega) hs
      obtain ⟨t, rest, ht⟩ := ih start middle hmiddle
        (fun i s hlo hhi => step i s hlo (by omega))
      refine ⟨t, ?_, ht⟩
      rw [List.range'_concat, Nat.one_mul, List.reverse_append, List.reverse_cons,
        List.reverse_nil, List.nil_append, List.singleton_append, List.foldlM_cons, first,
        ok_bind, rest]

theorem forDown_ok (inv : Nat → σ → Prop) {start stop : Nat} {body : Nat → σ → Run σ} {s : σ}
    (order : stop ≤ start) (init : inv start s)
    (step : ∀ i s, stop < i → i ≤ start → inv i s → ∃ t, body i s = .ok t ∧ inv (i - 1) t) :
    ∃ t, forDown start stop body s = .ok t ∧ inv stop t := by
  have bound : stop + 1 + (start - stop) - 1 = start := by omega
  exact foldlM_reverse_ok (fun i => inv (i - 1)) (fun s i => body i s) (start - stop) (stop + 1) s
    (by rwa [bound]) (fun i s hlo hhi hs => step i s (by omega) (by omega) hs)

theorem forSlotsDown_ok (inv : Nat → σ → Prop) {count : Nat} {body : Nat → σ → Run σ} {s : σ}
    (init : inv count s)
    (step : ∀ i s, i < count → inv (i + 1) s → ∃ t, body i s = .ok t ∧ inv i t) :
    ∃ t, forSlotsDown count body s = .ok t ∧ inv 0 t := by
  rw [forSlotsDown, List.range_eq_range']
  exact foldlM_reverse_ok inv (fun s i => body i s) count 0 s (by rwa [Nat.zero_add])
    (fun i s _ hhi hs => step i s (by omega) hs)

theorem forSlotsDown_succ (count : Nat) (body : Nat → σ → Run σ) (s : σ) :
    forSlotsDown (count + 1) body s = body count s >>= forSlotsDown count body := by
  rw [forSlotsDown, List.range_succ, List.reverse_append, List.reverse_singleton,
    List.singleton_append, List.foldlM_cons]
  rfl

/-- A counter that starts one below the number of slots visits every slot once. The
number must leave the value that ends the loop free. -/
theorem forDownWrapping_eq {w count fuel : Nat} (fits : count < 2 ^ w) (enough : count ≤ fuel)
    (body : Nat → σ → Run σ) (s : σ) :
    forDownWrapping w body fuel (wrappingPred w count) s = forSlotsDown count body s := by
  induction count generalizing fuel s with
  | zero =>
      rw [wrappingPred_zero]
      cases fuel <;> exact if_pos rfl
  | succ count ih =>
      obtain ⟨fuel, rfl⟩ : ∃ rest, fuel = rest + 1 := Nat.exists_eq_add_of_le' (by omega)
      rw [wrappingPred_succ (by omega), forDownWrapping, if_neg (by omega), forSlotsDown_succ]
      cases body count s with
      | error fault => rfl
      | ok t => exact ih (by omega) (by omega) t

theorem forUp_first {w start stop : Nat} {body : Nat → σ → Run σ} (order : start < stop)
    (fits : stop < 2 ^ w) (s : σ) :
    forUp w start stop body s = body start s >>= forUp w (start + 1) stop body := by
  rw [forUp, show stop - start = stop - (start + 1) + 1 by omega, List.range'_succ,
    List.foldlM_cons]
  cases body start s with
  | error e => rfl
  | ok t => rw [ok_bind, inc_of_lt (by omega), ok_bind, pure_eq_ok, ok_bind, ok_bind, forUp]

section Simulation

variable {ι τ : Type}

/-- Two folds over the same indices, in step with each other. The relation is
indexed by what is left of the list. -/
theorem foldlM_sim (rel : List ι → σ → τ → Prop) {body : σ → ι → Run σ} {body' : τ → ι → Run τ}
    (step : ∀ i rest s t, rel (i :: rest) s t →
      Ensures (body s i) (fun s' => ∃ t', body' t i = .ok t' ∧ rel rest s' t'))
    {indices : List ι} {s : σ} {t : τ} (init : rel indices s t) :
    Ensures (indices.foldlM body s)
      (fun s' => ∃ t', indices.foldlM body' t = .ok t' ∧ rel [] s' t') := by
  induction indices generalizing s t with
  | nil => exact Ensures.pure ⟨t, rfl, init⟩
  | cons i indices ih =>
      rw [List.foldlM_cons]
      refine Ensures.bind (step i indices s t init) ?_
      rintro middle ⟨middle', first, hmiddle⟩
      refine (ih hmiddle).mono ?_
      rintro s' ⟨t', rest, ht'⟩
      exact ⟨t', by rw [List.foldlM_cons, first, ok_bind, rest], ht'⟩

theorem forUp_sim (rel : Nat → σ → τ → Prop) {w start stop : Nat} {body : Nat → σ → Run σ}
    {body' : Nat → τ → Run τ} {s : σ} {t : τ} (order : start ≤ stop) (init : rel start s t)
    (step : ∀ i s t, start ≤ i → i < stop → rel i s t →
      Ensures (body i s) (fun s' => ∃ t', body' i t = .ok t' ∧ rel (i + 1) s' t')) :
    Ensures (forUp w start stop body s)
      (fun s' => ∃ t', forUp w start stop body' t = .ok t' ∧ rel stop s' t') := by
  let left (rest : List Nat) (s : σ) (t : τ) : Prop :=
    ∃ i, start ≤ i ∧ i ≤ stop ∧ rest = List.range' i (stop - i) ∧ rel i s t
  have stepLeft : ∀ i rest s t, left (i :: rest) s t → Ensures (do
      let s ← body i s
      let _ ← inc w i
      return s) (fun s' => ∃ t', (do
        let t ← body' i t
        let _ ← inc w i
        return t) = .ok t' ∧ left rest s' t') := by
    rintro i rest s t ⟨k, lower, upper, hrest, h⟩
    obtain hstop | hk := Nat.eq_or_lt_of_le upper
    · rw [hstop, Nat.sub_self] at hrest
      exact absurd hrest (List.cons_ne_nil _ _)
    · rw [show stop - k = stop - (k + 1) + 1 by omega, List.range'_succ] at hrest
      obtain ⟨rfl, rfl⟩ := List.cons.inj hrest
      refine Ensures.bind (step i s t lower hk h) ?_
      rintro s' ⟨t', run, h'⟩
      refine Ensures.bind_any (fun next hinc => Ensures.pure ?_)
      exact ⟨t', by rw [run, ok_bind, hinc, ok_bind, pure_eq_ok], i + 1, by omega, hk, rfl, h'⟩
  intro s' run
  obtain ⟨t', run', i, -, upper, hnil, h⟩ :=
    foldlM_sim left stepLeft ⟨start, Nat.le_refl _, order, rfl, init⟩ s' run
  have : stop - i = 0 := by simpa using congrArg List.length hnil.symm
  obtain rfl : i = stop := by omega
  exact ⟨t', run', h⟩

/-- The rule for loops that return, with the invariant indexed by the counter. -/
theorem Ensures.forUp_indexed (inv : Nat → σ → Prop) {w start stop : Nat}
    {body : Nat → σ → Run σ} {s : σ} (order : start ≤ stop) (init : inv start s)
    (step : ∀ i s, start ≤ i → i < stop → inv i s → Ensures (body i s) (inv (i + 1))) :
    Ensures (Checked.forUp w start stop body s) (inv stop) := by
  have alone : Ensures (Checked.forUp w start stop body s)
      (fun s' => ∃ t', Checked.forUp w start stop (fun _ (t : Unit) => .ok t) () = .ok t' ∧
        inv stop s') :=
    forUp_sim (fun i s _ => inv i s) order init (fun i s t lower upper h =>
      (step i s lower upper h).mono (fun _ h' => ⟨t, rfl, h'⟩))
  exact alone.mono (fun _ ⟨_, _, h⟩ => h)

/-- `r'` returns whatever `r` returns, and that satisfies `P`. -/
def RefinedBy (P : α → Prop) (r r' : Run α) : Prop := Ensures r (fun a => r' = .ok a ∧ P a)

namespace RefinedBy

variable {P : α → Prop} {Q : β → Prop} {r r' : Run α} {f f' : α → Run β}

theorem pure {a : α} (h : P a) : RefinedBy P (.ok a) (.ok a) := Ensures.pure ⟨rfl, h⟩

theorem bind (h : RefinedBy P r r') (next : ∀ a, P a → RefinedBy Q (f a) (f' a)) :
    RefinedBy Q (r >>= f) (r' >>= f') := by
  refine Ensures.bind h ?_
  rintro a ⟨hr', ha⟩
  rw [hr']
  exact next a ha

theorem same (r : Run α) : RefinedBy (fun _ => True) r r := fun _ run => ⟨run, trivial⟩

/-- Both begin with the same part. -/
theorem bind_same (next : ∀ a, RefinedBy Q (f a) (f' a)) : RefinedBy Q (r >>= f) (r >>= f') :=
  bind (same r) (fun a _ => next a)

theorem ite {c : Prop} [Decidable c] {no no' : Run α} (h : RefinedBy P r r')
    (hno : RefinedBy P no no') : RefinedBy P (if c then r else no) (if c then r' else no') := by
  split
  · exact h
  · exact hno

theorem foldlM (inv : σ → Prop) {body body' : σ → ι → Run σ} {indices : List ι} {s : σ}
    (init : inv s) (step : ∀ i s, inv s → RefinedBy inv (body s i) (body' s i)) :
    RefinedBy inv (indices.foldlM body s) (indices.foldlM body' s) := by
  have both : ∀ (i : ι) (_ : List ι) (s t : σ), s = t ∧ inv s →
      Ensures (body s i) (fun s' => ∃ t', body' t i = .ok t' ∧ s' = t' ∧ inv s') := by
    rintro i rest s t ⟨rfl, hs⟩
    exact (step i s hs).mono (fun t ht => ⟨t, ht.1, rfl, ht.2⟩)
  intro s' run
  obtain ⟨t', run', rfl, h⟩ := foldlM_sim (fun _ s t => s = t ∧ inv s) both ⟨rfl, init⟩ s' run
  exact ⟨run', h⟩

theorem forUp (inv : σ → Prop) {w start stop : Nat} {body body' : Nat → σ → Run σ} {s : σ}
    (init : inv s) (step : ∀ i s, inv s → RefinedBy inv (body i s) (body' i s)) :
    RefinedBy inv (forUp w start stop body s) (forUp w start stop body' s) :=
  foldlM inv init (fun i s hs =>
    bind (step i s hs) (fun _ ht => Ensures.bind_any (fun _ hinc => by
      rw [hinc, ok_bind]
      exact pure ht)))

theorem forDown (inv : σ → Prop) {start stop : Nat} {body body' : Nat → σ → Run σ} {s : σ}
    (init : inv s) (step : ∀ i s, inv s → RefinedBy inv (body i s) (body' i s)) :
    RefinedBy inv (forDown start stop body s) (forDown start stop body' s) :=
  foldlM inv init step

theorem forSlots (inv : σ → Prop) {count : Nat} {body body' : Nat → σ → Run σ} {s : σ}
    (init : inv s) (step : ∀ i s, inv s → RefinedBy inv (body i s) (body' i s)) :
    RefinedBy inv (forSlots count body s) (forSlots count body' s) := foldlM inv init step

theorem forSlotsDown (inv : σ → Prop) {count : Nat} {body body' : Nat → σ → Run σ} {s : σ}
    (init : inv s) (step : ∀ i s, inv s → RefinedBy inv (body i s) (body' i s)) :
    RefinedBy inv (forSlotsDown count body s) (forSlotsDown count body' s) :=
  foldlM inv init step

end RefinedBy

/-- What `r` returns, `r'` returns something for that is in the relation with it. -/
def SimulatedBy (rel : σ → τ → Prop) (r : Run σ) (r' : Run τ) : Prop :=
  Ensures r (fun s => ∃ t, r' = .ok t ∧ rel s t)

namespace SimulatedBy

variable {υ : Type} {rel : σ → τ → Prop} {rel' : α → υ → Prop} {r : Run σ} {r' : Run τ}
  {f : σ → Run α} {f' : τ → Run υ}

theorem pure {s : σ} {t : τ} (h : rel s t) : SimulatedBy rel (.ok s) (.ok t) :=
  Ensures.pure ⟨t, rfl, h⟩

theorem bind (h : SimulatedBy rel r r') (next : ∀ s t, rel s t → SimulatedBy rel' (f s) (f' t)) :
    SimulatedBy rel' (r >>= f) (r' >>= f') := by
  refine Ensures.bind h ?_
  rintro s ⟨t, hr', h⟩
  rw [hr']
  exact next s t h

/-- Both begin with the same part. -/
theorem bind_same {r : Run σ} {f' : σ → Run υ}
    (next : ∀ a, r = .ok a → SimulatedBy rel' (f a) (f' a)) :
    SimulatedBy rel' (r >>= f) (r >>= f') := by
  refine Ensures.bind_any (fun a hr => ?_)
  rw [hr]
  exact next a hr

theorem ite {c : Prop} [Decidable c] {no : Run σ} {no' : Run τ} (h : SimulatedBy rel r r')
    (hno : SimulatedBy rel no no') :
    SimulatedBy rel (if c then r else no) (if c then r' else no') := by
  split
  · exact h
  · exact hno

theorem foldlM {body : σ → ι → Run σ} {body' : τ → ι → Run τ} {indices : List ι} {s : σ} {t : τ}
    (init : rel s t) (step : ∀ i s t, rel s t → SimulatedBy rel (body s i) (body' t i)) :
    SimulatedBy rel (indices.foldlM body s) (indices.foldlM body' t) :=
  foldlM_sim (fun _ => rel) (fun i _ s t h => step i s t h) init

end SimulatedBy

end Simulation

end Checked
