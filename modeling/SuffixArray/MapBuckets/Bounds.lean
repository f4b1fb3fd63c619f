import SuffixArray.MapBuckets
import SuffixArray.InducedSorting.Buckets

/-!
# The maps of buckets

Both function objects deliver for every character that occurs the first and the last slot of
its bucket, as the counters of the included header do. The tree map is gone through by
increasing characters, so what has been passed are the buckets below; the vector has a count
for every character up to the greatest, zero for those that do not occur.
-/

namespace SuffixArray.MapBuckets

open Checked
open HeadsTails (get set)
open InducedSorting (IsLevel below upTo countOf idxBits below_add_countOf countOf_eq_count
  upTo_eq_below_succ upTo_le_length)
open LcpTables (resize)

/-- Assigning to a pair that is there changes no other. -/
class LawfulHeadsTails (β : Type) [HeadsTails β] : Prop where
  exists_set {m : β} {c : Nat} {p : Nat × Nat} (found : get m c = .ok p) (q : Nat × Nat) :
    ∃ m', set m c q = .ok m' ∧ ∀ d, get m' d = if d = c then .ok q else get m d

instance : LawfulHeadsTails (List (Nat × Nat)) where
  exists_set {m c p} found q := by
    obtain ⟨hc, -⟩ := List.getElem?_eq_some_iff.mp (load_eq_ok.mp found)
    refine ⟨m.set c q, store_of_lt hc q, fun d => ?_⟩
    change load (m.set c q) d = if d = c then _ else load m d
    by_cases same : d = c
    · rw [if_pos same, same, load_eq_ok, List.getElem?_set_self hc]
    · rw [if_neg same, load, load, List.getElem?_set_ne (Ne.symm same)]

instance : LawfulHeadsTails (Std.HashMap Nat (Nat × Nat)) where
  exists_set {m c p} _ q := by
    refine ⟨m.insert c q, rfl, fun d => ?_⟩
    change Except.ok ((m.insert c q).getD d (0, 0)) = _
    rw [Std.HashMap.getD_insert]
    by_cases same : d = c
    · rw [if_pos same, if_pos (beq_iff_eq.mpr same.symm)]
    · rw [if_neg same, if_neg (fun h => same (beq_iff_eq.mp h).symm)]
      rfl

/-- The container has the bounds of all buckets of the string. -/
def Bounded {β : Type} [HeadsTails β] (s : List Nat) (m : β) : Prop :=
  ∀ c ∈ s, get m c = .ok (1 + below s c, upTo s c)

variable {s : List Nat}

theorem bucket_eq (fits : s.length < 2 ^ idxBits - 1) (c : Nat) :
    bucket (1 + below s c) (s.count c) = .ok ((1 + below s c, upTo s c), 1 + below s (c + 1)) := by
  have total := below_add_countOf s c
  have most := upTo_le_length s c
  rw [countOf_eq_count] at total
  have room : 1 + below s c + s.count c < 2 ^ idxBits := by
    simp only [idxBits] at *
    omega
  rw [bucket, add_of_lt room, ok_bind, sub_of_le (by omega), ok_bind, ok_bind, pure_eq_ok,
    ← upTo_eq_below_succ, show 1 + below s c + s.count c = 1 + upTo s c by omega,
    Nat.add_sub_cancel_left]

/-- No bucket lies between. -/
theorem below_eq_of_gap {b c : Nat} (order : b ≤ c) (gap : ∀ d ∈ s, b ≤ d → c ≤ d) :
    below s b = below s c := by
  rw [below, below]
  refine congrArg Finset.card (Finset.filter_congr fun i hi => ?_)
  have := gap _ (SuffixOrder.chr_mem (Finset.mem_range.mp hi))
  omega

/-- The characters met so far with their numbers. -/
def tally (s : List Nat) (c : Nat) : Option Nat := if c ∈ s then some (s.count c) else none

theorem countFirst_eq {done : List Nat} {mp : Std.TreeMap Nat Nat} (e : Nat)
    (fits : done.length + 1 < 2 ^ idxBits) (h : ∀ c, mp[c]? = tally done c) :
    ∃ mp', countFirst mp e = .ok mp' ∧ ∀ c, mp'[c]? = tally (done ++ [e]) c := by
  have met (c : Nat) : tally (done ++ [e]) c =
      if e = c then some (done.count e + 1) else tally done c := by
    rw [tally, tally, List.count_append, List.count_singleton]
    by_cases same : e = c
    · subst same
      rw [if_pos (by simp), if_pos rfl, beq_self_eq_true, if_pos rfl]
    · have other : c ∈ done ++ [e] ↔ c ∈ done := by simp [Ne.symm same]
      rw [beq_false_of_ne same, if_neg same, if_neg Bool.false_ne_true, Nat.add_zero]
      exact if_congr other rfl rfl
  have inserted (size c : Nat) : (mp.insert e size)[c]? =
      if e = c then some size else tally done c := by
    rw [Std.TreeMap.getElem?_insert, h]
    exact if_congr Nat.compare_eq_eq rfl rfl
  rw [countFirst, h, tally]
  by_cases seen : e ∈ done
  · have few := List.count_le_length (a := e) (l := done)
    rw [if_pos seen]
    simp only []
    rw [inc_of_lt (by omega), ok_bind]
    exact ⟨_, rfl, fun c => by rw [inserted, met]⟩
  · rw [if_neg seen]
    refine ⟨_, rfl, fun c => ?_⟩
    rw [inserted, met, List.count_eq_zero_of_not_mem seen]

theorem getBucketSizesFirst_eq (fits : s.length < 2 ^ idxBits - 1) :
    ∃ sizes, getBucketSizesFirst s = .ok sizes ∧ ∀ c, sizes[c]? = tally s c := by
  have run (rest : List Nat) : ∀ (done : List Nat) (mp : Std.TreeMap Nat Nat),
      (done ++ rest).length < 2 ^ idxBits - 1 → (∀ c, mp[c]? = tally done c) →
      ∃ sizes, rest.foldlM countFirst mp = .ok sizes ∧ ∀ c, sizes[c]? = tally (done ++ rest) c := by
    induction rest with
    | nil => exact fun done mp _ h => ⟨mp, rfl, by rwa [List.append_nil]⟩
    | cons e rest ih =>
        intro done mp few h
        rw [List.append_cons] at few ⊢
        have room : done.length + 1 < 2 ^ idxBits := by
          rw [List.length_append, List.length_append, List.length_singleton] at few
          omega
        obtain ⟨mp', first, h'⟩ := countFirst_eq e room h
        obtain ⟨sizes, others, counted⟩ := ih (done ++ [e]) mp' few h'
        exact ⟨sizes, by rw [List.foldlM_cons, first, ok_bind, others], counted⟩
  exact run s [] ∅ fits (fun c => by simp [tally])

/-- The characters of `s` from `b` on, by increasing character, with their numbers. -/
structure Rising (s : List Nat) (b : Nat) (entries : List (Nat × Nat)) : Prop where
  rising : entries.Pairwise (fun e e' => e.1 < e'.1)
  counted : ∀ e ∈ entries, e.2 = s.count e.1
  keys : ∀ c, c ∈ entries.map Prod.fst ↔ c ∈ s ∧ b ≤ c

theorem Rising.tail {b c size : Nat} {entries : List (Nat × Nat)}
    (h : Rising s b ((c, size) :: entries)) : Rising s (c + 1) entries := by
  obtain ⟨above, rising⟩ := List.pairwise_cons.mp h.rising
  refine ⟨rising, fun e he => h.counted e (List.mem_cons_of_mem _ he), fun d => ?_⟩
  have keys := h.keys d
  rw [List.map_cons, List.mem_cons] at keys
  constructor
  · intro hd
    obtain ⟨e, he, rfl⟩ := List.mem_map.mp hd
    exact ⟨(keys.mp (Or.inr hd)).1, above e he⟩
  · rintro ⟨hd, hlt⟩
    have bound := ((h.keys c).mp List.mem_cons_self).2
    exact (keys.mpr ⟨hd, by omega⟩).resolve_left (by omega)

/-- What the loop has passed is what lies below. -/
theorem pushFirst_eq (fits : s.length < 2 ^ idxBits - 1) (entries : List (Nat × Nat)) :
    ∀ {b : Nat} {m : Std.HashMap Nat (Nat × Nat)}, Rising s b entries → (∀ c, b ≤ c → c ∉ m) →
      ∃ m' buf, entries.foldlM pushFirst (m, 1 + below s b) = .ok (m', buf) ∧
        (∀ c ∈ s, b ≤ c → m'[c]? = some (1 + below s c, upTo s c)) ∧
        ∀ c, c < b → m'[c]? = m[c]? := by
  induction entries with
  | nil =>
      intro b m h _
      exact ⟨m, _, rfl, fun c hc hb => absurd ((h.keys c).mpr ⟨hc, hb⟩) List.not_mem_nil,
        fun c _ => rfl⟩
  | cons entry entries ih =>
      obtain ⟨k, size⟩ := entry
      intro b m h fresh
      obtain ⟨hk, hb⟩ := (h.keys k).mp List.mem_cons_self
      have gap : ∀ d ∈ s, b ≤ d → k ≤ d := by
        intro d hd hbd
        obtain rfl | later := List.mem_cons.mp ((h.keys d).mpr ⟨hd, hbd⟩)
        · exact Nat.le_refl _
        · obtain ⟨e, he, rfl⟩ := List.mem_map.mp later
          exact ((List.pairwise_cons.mp h.rising).1 e he).le
      obtain rfl : size = s.count k := h.counted _ List.mem_cons_self
      let m' := m.insertIfNew k (1 + below s k, upTo s k)
      have inserted (c : Nat) : m'[c]? =
          if k = c then some (1 + below s k, upTo s k) else m[c]? := by
        rw [Std.HashMap.getElem?_insertIfNew]
        refine if_congr ?_ rfl rfl
        rw [beq_iff_eq]
        exact and_iff_left (fresh k hb)
      have fresh' : ∀ c, k + 1 ≤ c → c ∉ m' := by
        intro c hc hmem
        have found := Std.HashMap.mem_iff_isSome_getElem?.mp hmem
        rw [inserted, if_neg (by omega), ← Std.HashMap.mem_iff_isSome_getElem?] at found
        exact fresh c (by omega) found
      obtain ⟨m'', buf, run, filled, kept⟩ := ih h.tail fresh'
      refine ⟨m'', buf, ?_, fun c hc hbc => ?_, fun c hc => ?_⟩
      · rw [List.foldlM_cons, pushFirst, below_eq_of_gap hb gap, bucket_eq fits, ok_bind,
          pure_eq_ok, ok_bind]
        exact run
      · obtain hlt | rfl := Nat.lt_or_eq_of_le (gap c hc hbc)
        · exact filled c hc hlt
        · rw [kept _ (Nat.lt_succ_self _), inserted, if_pos rfl]
      · rw [kept c (by omega), inserted, if_neg (by omega)]

theorem makeHeadsTailsFirst_bounded (fits : s.length < 2 ^ idxBits - 1) :
    ∃ m, makeHeadsTailsFirst s = .ok m ∧ Bounded s m := by
  obtain ⟨sizes, counted, tallied⟩ := getBucketSizesFirst_eq fits
  have rising : Rising s 0 sizes.toList := by
    refine ⟨?_, fun e he => ?_, fun c => ?_⟩
    · exact Std.TreeMap.ordered_keys_toList.imp fun less => Nat.compare_eq_lt.mp less
    · have found := Std.TreeMap.mem_toList_iff_getElem?_eq_some.mp he
      rw [tallied, tally] at found
      split at found
      · exact (Option.some.inj found).symm
      · contradiction
    · rw [List.mem_map, and_iff_left (Nat.zero_le c)]
      constructor
      · rintro ⟨e, he, rfl⟩
        have found := Std.TreeMap.mem_toList_iff_getElem?_eq_some.mp he
        rw [tallied, tally] at found
        by_contra absent
        rw [if_neg absent] at found
        contradiction
      · intro hc
        refine ⟨(c, s.count c), Std.TreeMap.mem_toList_iff_getElem?_eq_some.mpr ?_, rfl⟩
        rw [tallied, tally, if_pos hc]
  obtain ⟨m, buf, run, filled, -⟩ := pushFirst_eq fits _ rising
    (fun c _ => Std.HashMap.not_mem_empty)
  have start : below s 0 = 0 := InducedSorting.below_eq_zero s fun c _ => Nat.zero_le c
  rw [start] at run
  refine ⟨m, by rw [makeHeadsTailsFirst, counted, ok_bind, run, ok_bind, pure_eq_ok], ?_⟩
  intro c hc
  change Except.ok (m.getD c (0, 0)) = _
  rw [Std.HashMap.getD_eq_getD_getElem?, filled c hc (Nat.zero_le c), Option.getD_some]

/-- The numbers of the characters met so far, up to the greatest of them. -/
structure Counted (done vec : List Nat) : Prop where
  lt_length : ∀ c ∈ done, c < vec.length
  count : ∀ (c : Nat) size, vec[c]? = some size → size = done.count c

theorem Counted.set {done vec : List Nat} {e size : Nat} (h : Counted done vec)
    (he : vec[e]? = some size) : Counted (done ++ [e]) (vec.set e (size + 1)) where
  lt_length c hc := by
    rw [List.length_set]
    obtain hc | hc := List.mem_append.mp hc
    · exact h.lt_length c hc
    · obtain rfl := List.mem_singleton.mp hc
      exact (List.getElem?_eq_some_iff.mp he).1
  count c n hn := by
    rw [List.count_append, List.count_singleton]
    by_cases same : e = c
    · subst same
      rw [List.getElem?_set_self (List.getElem?_eq_some_iff.mp he).1] at hn
      rw [beq_self_eq_true, if_pos rfl, ← h.count e size he, Option.some.inj hn]
    · rw [List.getElem?_set_ne same] at hn
      rw [beq_false_of_ne same, if_neg Bool.false_ne_true, Nat.add_zero]
      exact h.count c n hn

theorem countSecond_eq {done vec : List Nat} {e : Nat} (fits : done.length + 1 < 2 ^ idxBits)
    (word : e + 1 < 2 ^ idxBits) (h : Counted done vec) :
    ∃ vec', countSecond vec e = .ok vec' ∧ Counted (done ++ [e]) vec' := by
  have few := List.count_le_length (a := e) (l := done)
  by_cases inside : e < vec.length
  · have he := List.getElem?_eq_getElem inside
    have size := h.count e _ he
    refine ⟨_, ?_, h.set he⟩
    rw [countSecond, if_pos inside, load_of_lt inside, ok_bind, inc_of_lt (by omega), ok_bind,
      store_of_lt inside]
  · have grown : resize vec (e + 1) 0 = vec ++ List.replicate (e + 1 - vec.length) 0 := by
      rw [resize, List.take_of_length_le (by omega)]
    have padded : Counted done (vec ++ List.replicate (e + 1 - vec.length) 0) := by
      refine ⟨fun c hc => ?_, fun c n hn => ?_⟩
      · have := h.lt_length c hc
        rw [List.length_append]
        omega
      · obtain hlt | hge := Nat.lt_or_ge c vec.length
        · rw [List.getElem?_append_left hlt] at hn
          exact h.count c n hn
        · rw [List.getElem?_append_right hge, List.getElem?_replicate] at hn
          split at hn
          · have absent : c ∉ done := fun hc => absurd (h.lt_length c hc) (Nat.not_lt_of_le hge)
            rw [List.count_eq_zero_of_not_mem absent]
            exact (Option.some.inj hn).symm
          · contradiction
    have here : e < (vec ++ List.replicate (e + 1 - vec.length) 0).length := by
      rw [List.length_append, List.length_replicate]
      omega
    have he := List.getElem?_eq_getElem here
    have size := padded.count e _ he
    refine ⟨_, ?_, padded.set he⟩
    rw [countSecond, if_neg inside, inc_of_lt word, ok_bind]
    simp only [grown]
    rw [load_of_lt here, ok_bind, inc_of_lt (by omega), ok_bind, store_of_lt here]

theorem getBucketSizesSecond_eq (fits : s.length < 2 ^ idxBits - 1)
    (words : ∀ c ∈ s, c + 1 < 2 ^ idxBits) :
    ∃ sizes, getBucketSizesSecond s = .ok sizes ∧ Counted s sizes := by
  have run (rest : List Nat) : ∀ done vec : List Nat, (done ++ rest).length < 2 ^ idxBits - 1 →
      (∀ c ∈ rest, c + 1 < 2 ^ idxBits) → Counted done vec →
      ∃ sizes, rest.foldlM countSecond vec = .ok sizes ∧ Counted (done ++ rest) sizes := by
    induction rest with
    | nil => exact fun done vec _ _ h => ⟨vec, rfl, by rwa [List.append_nil]⟩
    | cons e rest ih =>
        intro done vec few words h
        rw [List.append_cons] at few ⊢
        have room : done.length + 1 < 2 ^ idxBits := by
          rw [List.length_append, List.length_append, List.length_singleton] at few
          omega
        obtain ⟨word, words⟩ := List.forall_mem_cons.mp words
        obtain ⟨vec', first, h'⟩ := countSecond_eq room word h
        obtain ⟨sizes, others, counted⟩ := ih (done ++ [e]) vec' few words h'
        exact ⟨sizes, by rw [List.foldlM_cons, first, ok_bind, others], counted⟩
  exact run s [] [] fits words ⟨fun c hc => absurd hc List.not_mem_nil, fun c n hn => nomatch hn⟩

theorem pushSecond_eq (fits : s.length < 2 ^ idxBits - 1) (sizes : List Nat) :
    ∀ (b : Nat) (acc : List (Nat × Nat)), (∀ (i : Nat) size, sizes[i]? = some size →
      size = s.count (b + i)) → ∃ buf, sizes.foldlM pushSecond (acc, 1 + below s b) =
        .ok (acc ++ (List.range' b sizes.length).map (fun c => (1 + below s c, upTo s c)),
          buf) := by
  induction sizes with
  | nil =>
      intro b acc _
      refine ⟨1 + below s b, ?_⟩
      rw [List.length_nil, List.range'_zero, List.map_nil, List.append_nil, List.foldlM_nil,
        pure_eq_ok]
  | cons size sizes ih =>
      intro b acc counted
      obtain rfl : size = s.count b := counted 0 size rfl
      obtain ⟨buf, run⟩ := ih (b + 1) (acc ++ [(1 + below s b, upTo s b)]) (fun i n hn => by
        rw [Nat.add_assoc, Nat.add_comm 1 i]
        exact counted (i + 1) n hn)
      refine ⟨buf, ?_⟩
      rw [List.foldlM_cons, pushSecond, bucket_eq fits, ok_bind, pure_eq_ok, ok_bind, run,
        List.length_cons, List.range'_succ, List.map_cons, ← List.append_cons]

theorem makeHeadsTailsSecond_bounded (fits : s.length < 2 ^ idxBits - 1)
    (words : ∀ c ∈ s, c + 1 < 2 ^ idxBits) :
    ∃ m, makeHeadsTailsSecond s = .ok m ∧ Bounded s m := by
  obtain ⟨sizes, counted, h⟩ := getBucketSizesSecond_eq fits words
  have start : below s 0 = 0 := InducedSorting.below_eq_zero s fun c _ => Nat.zero_le c
  obtain ⟨buf, run⟩ := pushSecond_eq fits sizes 0 []
    (fun i size hi => by rw [Nat.zero_add]; exact h.count i size hi)
  rw [start] at run
  refine ⟨_, by rw [makeHeadsTailsSecond, counted, ok_bind, run, ok_bind, pure_eq_ok], ?_⟩
  intro c hc
  change load _ c = _
  rw [List.nil_append, load_eq_ok, List.getElem?_map, List.getElem?_range' (h.lt_length c hc)]
  simp

end SuffixArray.MapBuckets
