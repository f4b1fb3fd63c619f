import Mathlib.Data.Finset.Card
import Mathlib.Order.Interval.Finset.Nat

/-!
# Scans that extend the array they read

A scan visits cells `0, 1, …` of an array of numbers. When it meets `j + 1` and
`j` is one of the chosen numbers, it writes `j` to the next cell of the region
that belongs to the key of `j`. Regions are exactly as long as the number of
chosen numbers of their key, but nothing is said about what they hold at first.

The layout of regions and seeds is the only premise. It follows that no region
overflows, that every region cell has received its final number before the scan
reaches it, that every chosen number ends up in its region exactly once, and
that two numbers of one region stand in the order in which their successors were
met. Left-to-right and right-to-left passes are both instances; a cell number is
the time of the visit, not an address.
-/

namespace InducedScan

/-- The data of a scan: which numbers are placed by it, the key and with it the
region of each number, and the cells before the scan. -/
structure Layout (κ : Type) where
  size : Nat
  cells : Nat
  chosen : Nat → Bool
  key : Nat → κ
  first : κ → Nat
  init : Nat → Option Nat

variable {κ : Type} [DecidableEq κ]

namespace Layout

/-- The chosen numbers of one key. -/
def members (l : Layout κ) (c : κ) : Finset Nat :=
  (Finset.range l.size).filter (fun j => l.chosen j ∧ l.key j = c)

def quota (l : Layout κ) (c : κ) : Nat := (l.members c).card

def InRegion (l : Layout κ) (c : κ) (i : Nat) : Prop :=
  l.first c ≤ i ∧ i < l.first c + l.quota c

/-- Cells outside all regions. The scan never writes them. -/
def Free (l : Layout κ) (i : Nat) : Prop := ∀ c, ¬ l.InRegion c i

end Layout

/-- A layout on which the scan is well defined. By `feed`, the successor of each
chosen number is a seed met before its region, or is itself chosen, with the same
key or with one whose region lies before. -/
structure Scan (κ : Type) [DecidableEq κ] extends Layout κ where
  chosen_lt : ∀ j, chosen j → j < size
  region_lt : ∀ c i, toLayout.InRegion c i → i < cells
  disjoint : ∀ c d i, toLayout.InRegion c i → toLayout.InRegion d i → c = d
  seed_not_chosen : ∀ i e, toLayout.Free i → init i = some e → ¬ chosen e
  seed_unique : ∀ i i' e, toLayout.Free i → toLayout.Free i' →
    init i = some e → init i' = some e → i = i'
  feed : ∀ j, chosen j →
    (∃ i, i < first (key j) ∧ toLayout.Free i ∧ init i = some (j + 1)) ∨
    (chosen (j + 1) ∧ key (j + 1) = key j) ∨
    (chosen (j + 1) ∧ ∀ i, toLayout.InRegion (key (j + 1)) i → i < first (key j))

/-- The cells and, for each key, the cell its next number goes to. -/
structure State (κ : Type) where
  cell : Nat → Option Nat
  next : κ → Nat

namespace State

/-- Write `j` to the next cell of its region. -/
def put (s : State κ) (c : κ) (j : Nat) : State κ :=
  { cell := fun i => if i = s.next c then some j else s.cell i
    next := fun d => if d = c then s.next c + 1 else s.next d }

theorem put_cell (s : State κ) (c : κ) (j i : Nat) :
    (s.put c j).cell i = if i = s.next c then some j else s.cell i := rfl

theorem put_next (s : State κ) (c d : κ) (j : Nat) :
    (s.put c j).next d = if d = c then s.next c + 1 else s.next d := rfl

@[simp] theorem put_cell_self (s : State κ) (c : κ) (j : Nat) :
    (s.put c j).cell (s.next c) = some j := if_pos rfl

theorem put_cell_ne (s : State κ) (c : κ) (j : Nat) {i : Nat} (h : i ≠ s.next c) :
    (s.put c j).cell i = s.cell i := if_neg h

@[simp] theorem put_next_self (s : State κ) (c : κ) (j : Nat) :
    (s.put c j).next c = s.next c + 1 := if_pos rfl

theorem put_next_ne (s : State κ) (c : κ) (j : Nat) {d : κ} (h : d ≠ c) :
    (s.put c j).next d = s.next d := if_neg h

theorem le_put_next (s : State κ) (c d : κ) (j : Nat) : s.next d ≤ (s.put c j).next d := by
  by_cases h : d = c
  · subst h
    simp
  · rw [put_next_ne s c j h]

/-- Only the cell just written is new behind a pointer. -/
theorem lt_put_next (s : State κ) {c d : κ} {j i : Nat} (h : i < (s.put c j).next d) :
    i < s.next d ∨ d = c ∧ i = s.next c := by
  rw [put_next] at h
  split at h
  · next same =>
      obtain heq | hlt := Nat.eq_or_lt_of_le (Nat.le_of_lt_succ h)
      · exact Or.inr ⟨same, heq⟩
      · exact Or.inl (same ▸ hlt)
  · exact Or.inl h

end State

namespace Scan

variable (p : Scan κ)

def start : State κ := ⟨p.init, p.first⟩

/-- The visit of cell `i`. -/
def step (i : Nat) (s : State κ) : State κ :=
  match s.cell i with
  | some (j + 1) => if p.chosen j then s.put (p.key j) j else s
  | _ => s

/-- The state before the visit of cell `t`. -/
def run : Nat → State κ
  | 0 => p.start
  | t + 1 => p.step t (run t)

/-- Cells whose content is final: seeds, and the filled part of each region. -/
def Settled (s : State κ) (i : Nat) : Prop :=
  p.Free i ∨ ∃ c, p.first c ≤ i ∧ i < s.next c

/-- What holds before the visit of cell `t`. -/
structure Inv (t : Nat) (s : State κ) : Prop where
  outside : ∀ i, p.Free i → s.cell i = p.init i
  first_le : ∀ c, p.first c ≤ s.next c
  next_le : ∀ c, s.next c ≤ p.first c + p.quota c
  filled : ∀ c i, p.first c ≤ i → i < s.next c →
    ∃ j, s.cell i = some j ∧ p.chosen j ∧ p.key j = c ∧ ∃ i' < t, s.cell i' = some (j + 1)
  placed : ∀ i j, i < t → s.cell i = some (j + 1) → p.chosen j →
    ∃ i', p.first (p.key j) ≤ i' ∧ i' < s.next (p.key j) ∧ s.cell i' = some j
  unique : ∀ i i' e, p.Settled s i → p.Settled s i' → s.cell i = some e →
    s.cell i' = some e → i = i'
  order : ∀ c i i' a b, p.first c ≤ i → i < i' → i' < s.next c →
    s.cell i = some a → s.cell i' = some b →
    ∃ k k', k < k' ∧ k' < t ∧ s.cell k = some (a + 1) ∧ s.cell k' = some (b + 1)
  ahead : ∀ c i, i < t → p.InRegion c i → i < s.next c

variable {p}

theorem mem_members {c : κ} {j : Nat} : j ∈ p.members c ↔ p.chosen j ∧ p.key j = c := by
  simp only [Layout.members, Finset.mem_filter, Finset.mem_range, and_iff_right_iff_imp]
  exact fun h => p.chosen_lt j h.1

theorem inv_start : p.Inv 0 p.start where
  outside _ _ := rfl
  first_le _ := Nat.le_refl _
  next_le _ := Nat.le_add_right _ _
  filled _ _ hlo hhi := absurd hhi (Nat.not_lt_of_le hlo)
  placed _ _ h := absurd h (Nat.not_lt_zero _)
  unique i i' e hi hi' he he' := by
    have free : ∀ i, p.Settled p.start i → p.Free i := by
      rintro i (h | ⟨c, hlo, hhi⟩)
      · exact h
      · exact absurd hhi (Nat.not_lt_of_le hlo)
    exact p.seed_unique i i' e (free i hi) (free i' hi') he he'
  order _ _ _ _ _ hlo hlt hhi := absurd hhi (Nat.not_lt_of_le (hlo.trans (Nat.le_of_lt hlt)))
  ahead _ _ h := absurd h (Nat.not_lt_zero _)

namespace Inv

variable {t : Nat} {s : State κ}

theorem inRegion (h : p.Inv t s) {c : κ} {i : Nat} (hlo : p.first c ≤ i) (hhi : i < s.next c) :
    p.InRegion c i := ⟨hlo, Nat.lt_of_lt_of_le hhi (h.next_le c)⟩

/-- A filled region cell belongs to no other key. -/
theorem key_eq (h : p.Inv t s) {c d : κ} {i : Nat} (hlo : p.first c ≤ i) (hhi : i < s.next c)
    (hd : p.InRegion d i) : c = d := p.disjoint c d i (h.inRegion hlo hhi) hd

theorem settled_of_lt (h : p.Inv t s) {i : Nat} (hi : i < t) : p.Settled s i := by
  by_cases hfree : p.Free i
  · exact Or.inl hfree
  · simp only [Layout.Free, not_forall, not_not] at hfree
    obtain ⟨c, hc⟩ := hfree
    exact Or.inr ⟨c, hc.1, h.ahead c i hi hc⟩

/-- While a number of the key is still to come, its region has room. -/
theorem next_lt_of_missing (h : p.Inv t s) {j : Nat} (hj : p.chosen j)
    (missing : ∀ i, p.first (p.key j) ≤ i → i < s.next (p.key j) → s.cell i ≠ some j) :
    s.next (p.key j) < p.first (p.key j) + p.quota (p.key j) := by
  set c := p.key j with hc
  let content := fun i => (s.cell i).getD 0
  have maps : ∀ i ∈ Finset.Ico (p.first c) (s.next c), content i ∈ (p.members c).erase j := by
    intro i hi
    obtain ⟨hlo, hhi⟩ := Finset.mem_Ico.mp hi
    obtain ⟨k, hk, hchosen, hkey, _⟩ := h.filled c i hlo hhi
    have : content i = k := by simp only [content, hk, Option.getD_some]
    rw [this, Finset.mem_erase, mem_members]
    exact ⟨fun same => missing i hlo hhi (same ▸ hk), hchosen, hkey⟩
  have inj : Set.InjOn content (Finset.Ico (p.first c) (s.next c)) := by
    intro i hi i' hi' same
    obtain ⟨hlo, hhi⟩ := Finset.mem_Ico.mp hi
    obtain ⟨hlo', hhi'⟩ := Finset.mem_Ico.mp hi'
    obtain ⟨k, hk, _⟩ := h.filled c i hlo hhi
    obtain ⟨k', hk', _⟩ := h.filled c i' hlo' hhi'
    simp only [content, hk, hk', Option.getD_some] at same
    exact h.unique i i' k (Or.inr ⟨c, hlo, hhi⟩) (Or.inr ⟨c, hlo', hhi'⟩) hk (same ▸ hk')
  have count := Finset.card_le_card_of_injOn content maps inj
  have hmem : j ∈ p.members c := mem_members.mpr ⟨hj, hc.symm⟩
  have hpos := Finset.card_pos.mpr ⟨j, hmem⟩
  rw [Nat.card_Ico, Finset.card_erase_of_mem hmem] at count
  have := h.first_le c
  simp only [Layout.quota]
  omega

/-- A region all of whose numbers have been placed is full. -/
theorem next_eq_of_placed (h : p.Inv t s) {c : κ}
    (all : ∀ j, p.chosen j → p.key j = c →
      ∃ i, p.first c ≤ i ∧ i < s.next c ∧ s.cell i = some j) :
    s.next c = p.first c + p.quota c := by
  let content := fun i => (s.cell i).getD 0
  have sub : p.members c ⊆ (Finset.Ico (p.first c) (s.next c)).image content := by
    intro j hj
    obtain ⟨hchosen, hkey⟩ := mem_members.mp hj
    obtain ⟨i, hlo, hhi, hi⟩ := all j hchosen hkey
    refine Finset.mem_image.mpr ⟨i, Finset.mem_Ico.mpr ⟨hlo, hhi⟩, ?_⟩
    simp only [content, hi, Option.getD_some]
  have count := (Finset.card_le_card sub).trans Finset.card_image_le
  rw [Nat.card_Ico] at count
  have hlo := h.first_le c
  have hhi := h.next_le c
  simp only [Layout.quota] at hhi ⊢
  omega

theorem placed_of_full (h : p.Inv t s) {j : Nat} (hj : p.chosen j)
    (full : ∀ i, p.InRegion (p.key j) i → i < s.next (p.key j)) :
    ∃ i, p.first (p.key j) ≤ i ∧ i < s.next (p.key j) ∧ s.cell i = some j := by
  by_contra none
  have room := h.next_lt_of_missing hj (fun i hlo hhi hi => none ⟨i, hlo, hhi, hi⟩)
  exact absurd (full _ ⟨h.first_le _, room⟩) (Nat.lt_irrefl _)

/-- When the scan reaches the end of the filled part of a region, every number of
its key has already been placed. The induction follows successors upwards. -/
theorem placed_of_reached (h : p.Inv t s) {c : κ} (reached : s.next c ≤ t)
    (region : p.first c ≤ t) :
    ∀ d j, p.size - j = d → p.chosen j → p.key j = c →
      ∃ i, p.first c ≤ i ∧ i < s.next c ∧ s.cell i = some j := by
  intro d
  induction d with
  | zero =>
      intro j hd hj
      have := p.chosen_lt j hj
      omega
  | succ d ih =>
      rintro j hd hj rfl
      obtain ⟨i, hi, hfree, hseed⟩ | ⟨hnext, hkey⟩ | ⟨hnext, hbefore⟩ := p.feed j hj
      · exact h.placed i j (by omega) ((h.outside i hfree).trans hseed) hj
      · obtain ⟨i, hlo, hhi, hi⟩ := ih (j + 1) (by omega) hnext hkey
        exact h.placed i j (by omega) hi hj
      · obtain ⟨i, hlo, hhi, hi⟩ := h.placed_of_full hnext (fun i hi =>
          h.ahead _ i (by have := hbefore i hi; omega) hi)
        have := hbefore i (h.inRegion hlo hhi)
        exact h.placed i j (by omega) hi hj

/-- The cell about to be visited is filled if it lies in a region. -/
theorem ahead_now (h : p.Inv t s) {c : κ} (region : p.InRegion c t) : t < s.next c := by
  by_contra reached
  have full := h.next_eq_of_placed (fun j hj hkey =>
    h.placed_of_reached (Nat.le_of_not_lt reached) region.1 _ j rfl hj hkey)
  have := region.2
  omega

theorem settled_now (h : p.Inv t s) : p.Settled s t := by
  by_cases hfree : p.Free t
  · exact Or.inl hfree
  · simp only [Layout.Free, not_forall, not_not] at hfree
    obtain ⟨c, hc⟩ := hfree
    exact Or.inr ⟨c, hc.1, h.ahead_now hc⟩

theorem ahead_le (h : p.Inv t s) {c : κ} {i : Nat} (hi : i ≤ t) (region : p.InRegion c i) :
    i < s.next c := by
  obtain rfl | hlt := Nat.eq_or_lt_of_le hi
  · exact h.ahead_now region
  · exact h.ahead c i hlt region

/-- The cell about to be visited holds an initial number or a chosen one. -/
theorem cell_now (h : p.Inv t s) {Q : Nat → Prop}
    (initial : ∀ e, p.init t = some e → Q e) (chosen : ∀ j, p.chosen j → Q j) {e : Nat}
    (he : s.cell t = some e) : Q e := by
  obtain hfree | ⟨c, hlo, hhi⟩ := h.settled_now
  · exact initial e ((h.outside t hfree).symm.trans he)
  · obtain ⟨j, hj, hchosen, _⟩ := h.filled c t hlo hhi
    obtain rfl : j = e := Option.some.inj (hj.symm.trans he)
    exact chosen j hchosen

/-- Scanned cells hold distinct numbers, so a successor is met only once. -/
theorem not_met (h : p.Inv t s) {e i : Nat} (now : s.cell t = some e) (hi : i < t) :
    s.cell i ≠ some e := by
  intro he
  have := h.unique i t e (h.settled_of_lt hi) h.settled_now he now
  omega

/-- The write of a visit goes to a free cell of the region, beyond the scan. -/
theorem write_room (h : p.Inv t s) {j : Nat} (now : s.cell t = some (j + 1)) (hj : p.chosen j) :
    p.InRegion (p.key j) (s.next (p.key j)) ∧ t < s.next (p.key j) := by
  have room := h.next_lt_of_missing hj (by
    intro i hlo hhi hi
    obtain ⟨k, hk, _, _, i', hi', hsource⟩ := h.filled _ i hlo hhi
    obtain rfl : k = j := Option.some.inj (hk.symm.trans hi)
    exact h.not_met now hi' hsource)
  have region : p.InRegion (p.key j) (s.next (p.key j)) := ⟨h.first_le _, room⟩
  refine ⟨region, ?_⟩
  by_contra hle
  exact absurd (h.ahead_le (Nat.le_of_not_lt hle) region) (Nat.lt_irrefl _)

/-- A visit that writes nothing. -/
theorem skip (h : p.Inv t s) (idle : ∀ j, s.cell t = some (j + 1) → ¬ p.chosen j) :
    p.Inv (t + 1) s where
  outside := h.outside
  first_le := h.first_le
  next_le := h.next_le
  filled c i hlo hhi := by
    obtain ⟨j, hj, hchosen, hkey, i', hi', hsource⟩ := h.filled c i hlo hhi
    exact ⟨j, hj, hchosen, hkey, i', by omega, hsource⟩
  placed i j hi he hj := by
    obtain rfl | hlt := Nat.eq_or_lt_of_le (Nat.le_of_lt_succ hi)
    · exact absurd hj (idle j he)
    · exact h.placed i j hlt he hj
  unique := h.unique
  order c i i' a b hlo hlt hhi ha hb := by
    obtain ⟨k, k', hk, hk', hsource, hsource'⟩ := h.order c i i' a b hlo hlt hhi ha hb
    exact ⟨k, k', hk, by omega, hsource, hsource'⟩
  ahead c i hi region := h.ahead_le (Nat.le_of_lt_succ hi) region

/-- The filled part of a region does not reach the cell after another one's. -/
theorem ne_next (h : p.Inv t s) {c d : κ} {i : Nat} (region : p.InRegion c (s.next c))
    (hlo : p.first d ≤ i) (hhi : i < s.next d) : i ≠ s.next c := by
  rintro rfl
  obtain rfl := h.key_eq hlo hhi region
  exact Nat.lt_irrefl _ hhi

/-- A number stands in no settled cell before its successor is met. -/
theorem not_settled (h : p.Inv t s) {j i : Nat} (now : s.cell t = some (j + 1)) (hj : p.chosen j)
    (hi : p.Settled s i) : s.cell i ≠ some j := by
  intro he
  obtain hfree | ⟨d, hlo, hhi⟩ := hi
  · exact p.seed_not_chosen i j hfree ((h.outside i hfree).symm.trans he) hj
  · obtain ⟨k, hk, _, _, i', hi', hsource⟩ := h.filled d i hlo hhi
    obtain rfl : k = j := Option.some.inj (hk.symm.trans he)
    exact h.not_met now hi' hsource

/-- Placing `j` leaves the settled cells distinct. -/
theorem put_unique (h : p.Inv t s) {j : Nat} (now : s.cell t = some (j + 1)) (hj : p.chosen j)
    (i i' e : Nat) (hi : p.Settled (s.put (p.key j) j) i) (hi' : p.Settled (s.put (p.key j) j) i')
    (he : (s.put (p.key j) j).cell i = some e) (he' : (s.put (p.key j) j).cell i' = some e) :
    i = i' := by
  have old : ∀ i, i ≠ s.next (p.key j) → p.Settled (s.put (p.key j) j) i → p.Settled s i := by
    rintro i hne (hfree | ⟨d, hlo, hhi⟩)
    · exact Or.inl hfree
    · obtain hold | ⟨_, same⟩ := s.lt_put_next hhi
      · exact Or.inr ⟨d, hlo, hold⟩
      · exact absurd same hne
  rw [State.put_cell] at he he'
  split at he
  · next same =>
      split at he'
      · next same' => exact same.trans same'.symm
      · next hne' => exact absurd (he'.trans he.symm) (h.not_settled now hj (old i' hne' hi'))
  · next hne =>
      split at he'
      · next same' => exact absurd (he.trans he'.symm) (h.not_settled now hj (old i hne hi))
      · next hne' => exact h.unique i i' e (old i hne hi) (old i' hne' hi') he he'

/-- A visit that places `j`. -/
theorem put (h : p.Inv t s) {j : Nat} (now : s.cell t = some (j + 1)) (hj : p.chosen j) :
    p.Inv (t + 1) (s.put (p.key j) j) := by
  obtain ⟨region, beyond⟩ := h.write_room now hj
  set c := p.key j with hc
  have frame : ∀ d i, p.first d ≤ i → i < s.next d → i ≠ s.next c := fun _ _ => h.ne_next region
  have below : ∀ i, i ≤ t → (s.put c j).cell i = s.cell i := fun i hi =>
    s.put_cell_ne c j (by omega)
  refine
    { outside := ?_, first_le := ?_, next_le := ?_, filled := ?_, placed := ?_, unique := ?_,
      order := ?_, ahead := ?_ }
  · intro i hfree
    have hne : i ≠ s.next c := by
      rintro rfl
      exact hfree c region
    rw [s.put_cell_ne c j hne]
    exact h.outside i hfree
  · exact fun d => (h.first_le d).trans (s.le_put_next c d j)
  · intro d
    by_cases hd : d = c
    · subst hd
      rw [State.put_next_self]
      exact region.2
    · rw [s.put_next_ne c j hd]
      exact h.next_le d
  · intro d i hlo hhi
    obtain hold | ⟨rfl, rfl⟩ := s.lt_put_next hhi
    · obtain ⟨k, hk, hchosen, hkey, i', hi', hsource⟩ := h.filled d i hlo hold
      exact ⟨k, (s.put_cell_ne c j (frame d i hlo hold)).trans hk, hchosen, hkey, i',
        by omega, (below i' (by omega)).trans hsource⟩
    · exact ⟨j, s.put_cell_self _ j, hj, hc.symm, t, by omega, (below t (Nat.le_refl t)).trans now⟩
  · intro i k hi he hk
    rw [below i (by omega)] at he
    obtain rfl | hlt := Nat.eq_or_lt_of_le (Nat.le_of_lt_succ hi)
    · obtain rfl : k = j := Nat.succ.inj (Option.some.inj (he.symm.trans now))
      exact ⟨s.next c, region.1, by rw [← hc, State.put_next_self]; omega, s.put_cell_self c k⟩
    · obtain ⟨i', hlo, hhi, hi'⟩ := h.placed i k hlt he hk
      exact ⟨i', hlo, Nat.lt_of_lt_of_le hhi (s.le_put_next c _ j),
        (s.put_cell_ne c j (frame _ i' hlo hhi)).trans hi'⟩
  · exact h.put_unique now hj
  · intro d i i' a b hlo hlt hhi ha hb
    obtain hold | ⟨rfl, rfl⟩ := s.lt_put_next hhi
    · rw [s.put_cell_ne c j (frame d i hlo (by omega))] at ha
      rw [s.put_cell_ne c j (frame d i' (by omega) hold)] at hb
      obtain ⟨k, k', hk, hk', hsource, hsource'⟩ := h.order d i i' a b hlo hlt hold ha hb
      exact ⟨k, k', hk, by omega, (below k (by omega)).trans hsource,
        (below k' (by omega)).trans hsource'⟩
    · rw [s.put_cell_ne _ j (by omega)] at ha
      rw [State.put_cell_self, Option.some.injEq] at hb
      obtain ⟨k, hk, _, _, i', hi', hsource⟩ := h.filled _ i hlo hlt
      obtain rfl : k = a := Option.some.inj (hk.symm.trans ha)
      exact ⟨i', t, hi', by omega, (below i' (by omega)).trans hsource,
        (below t (Nat.le_refl t)).trans (hb ▸ now)⟩
  · intro d i hi hd
    exact Nat.lt_of_lt_of_le (h.ahead_le (Nat.le_of_lt_succ hi) hd) (s.le_put_next c d j)

theorem step (h : p.Inv t s) : p.Inv (t + 1) (p.step t s) := by
  unfold Scan.step
  split
  · next j now =>
      split
      · next hj => exact h.put now hj
      · next hj =>
          exact h.skip (fun k hk => by
            obtain rfl : k = j := Nat.succ.inj (Option.some.inj (hk.symm.trans now))
            exact hj)
  · next other => exact h.skip (fun k hk => absurd hk (other k))

end Inv

theorem inv_run (t : Nat) : p.Inv t (p.run t) := by
  induction t with
  | zero => exact inv_start
  | succ t ih => exact ih.step

variable (p) in
/-- The cells after the whole scan. -/
def result : Nat → Option Nat := (p.run p.cells).cell

theorem result_of_free {i : Nat} (h : p.Free i) : p.result i = p.init i :=
  (inv_run p.cells).outside i h

theorem region_filled {c : κ} {i : Nat} (h : p.InRegion c i) : i < (p.run p.cells).next c :=
  (inv_run p.cells).ahead c i (p.region_lt c i h) h

/-- Every chosen number is placed in its region. -/
theorem exists_result {j : Nat} (h : p.chosen j) :
    ∃ i, p.InRegion (p.key j) i ∧ p.result i = some j := by
  obtain ⟨i, hlo, hhi, hi⟩ := (inv_run p.cells).placed_of_full h (fun i => region_filled)
  exact ⟨i, (inv_run p.cells).inRegion hlo hhi, hi⟩

/-- A region holds numbers of its key only. -/
theorem result_of_region {c : κ} {i : Nat} (h : p.InRegion c i) :
    ∃ j, p.result i = some j ∧ p.chosen j ∧ p.key j = c := by
  obtain ⟨j, hj, hchosen, hkey, _⟩ := (inv_run p.cells).filled c i h.1 (region_filled h)
  exact ⟨j, hj, hchosen, hkey⟩

theorem result_unique {i i' e : Nat} (hi : i < p.cells) (hi' : i' < p.cells)
    (he : p.result i = some e) (he' : p.result i' = some e) : i = i' :=
  (inv_run p.cells).unique i i' e ((inv_run p.cells).settled_of_lt hi)
    ((inv_run p.cells).settled_of_lt hi') he he'

/-- Two numbers of a region stand in the order of their successors. -/
theorem result_order {c : κ} {i i' a b : Nat} (hi : p.InRegion c i) (hi' : p.InRegion c i')
    (hlt : i < i') (ha : p.result i = some a) (hb : p.result i' = some b) :
    ∃ k k', k < k' ∧ k' < p.cells ∧ p.result k = some (a + 1) ∧ p.result k' = some (b + 1) :=
  (inv_run p.cells).order c i i' a b hi.1 hlt (region_filled hi') ha hb

end Scan

end InducedScan
