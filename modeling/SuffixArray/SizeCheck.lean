import SuffixArray.Program

/-!
# What the check of the data size stops

`checkDataSizeIdxT` gets the size as an `idxT`, so it sees a remainder, and what it does
about a size that is too large is to print. Its two neighbours exit.
-/

namespace SuffixArray.Program

open Checked Console SuffixOrder
open Naive (SortsUnder)

section SizeCheck

variable {idxT alph : IntType} {data : List UInt8}

/-- `init` comes to run the algorithm and goes on with its result. -/
def GoesOn (idxT alph : IntType) (data : List UInt8) : Prop :=
  ∀ (algorithm : List UInt8 → Nat → Console (List Nat)) (goOn : List Nat → Console Done) (max : Nat)
    (texts : List String), ∃ texts', init idxT alph algorithm goOn data max texts =
      (algorithm data max >>= goOn) texts'

/-- `init` exits before. -/
def Rejects (idxT alph : IntType) (data : List UInt8) : Prop :=
  ∀ (algorithm : List UInt8 → Nat → Console (List Nat)) (goOn : List Nat → Console Done) (max : Nat)
    (texts : List String), ∃ texts', init idxT alph algorithm goOn data max texts =
      .error (.exit texts')

/-- The algorithm runs only on a corpus all of whose positions are indices other than `invalid`,
and any longer corpus is rejected. -/
def StopsOversized (idxT alph : IntType) (data : List UInt8) : Prop :=
  (GoesOn idxT alph data → data.length < 2 ^ idxT.bits - 1) ∧
    (2 ^ idxT.bits - 1 ≤ data.length → Rejects idxT alph data)

/-- What the check of the size prints. -/
def sizeTexts (idxT : IntType) (size : Nat) : List String :=
  if size % 2 ^ idxT.bits = 2 ^ idxT.bits - 1 then
    ["Input has too many positions for index-type(idxT)!!!\n"]
  else
    []

/-- The remainder that the check sees is too large only if it is the marker itself. -/
theorem checkDataSizeIdxT_eq (idxT : IntType) (size : Nat) (texts : List String) :
    checkDataSizeIdxT idxT (size % 2 ^ idxT.bits) texts =
      .ok ((), texts ++ sizeTexts idxT size) := by
  have hlt : size % 2 ^ idxT.bits < 2 ^ idxT.bits := Nat.mod_lt _ (Nat.two_pow_pos _)
  rw [checkDataSizeIdxT, sizeTexts]
  by_cases marker : size % 2 ^ idxT.bits = 2 ^ idxT.bits - 1
  · rw [if_pos (Nat.le_of_eq marker.symm), if_pos marker]
    rfl
  · rw [if_neg (by omega), if_neg marker, List.append_nil]
    rfl

/-- With unsigned types nothing stops `init` in front of the algorithm, whatever the size. -/
theorem init_eq (unsigned : idxT.signed = false) (unsigned' : alph.signed = false)
    (algorithm : List UInt8 → Nat → Console (List Nat)) (goOn : List Nat → Console Done) (max : Nat)
    (texts : List String) :
    init idxT alph algorithm goOn data max texts =
      (algorithm data max >>= goOn) (texts ++ sizeTexts idxT data.length) := by
  have hidx : checkIndexType idxT = pure () := by rw [checkIndexType, unsigned, if_neg (by decide)]
  have halph : checkAlphabetType alph = pure () := by
    rw [checkAlphabetType, unsigned', if_neg (by decide)]
  rw [init, hidx, pure_bind, halph, pure_bind]
  change (checkDataSizeIdxT idxT (data.length % 2 ^ idxT.bits) texts >>= _) = _
  rw [checkDataSizeIdxT_eq]
  rfl

theorem init_goesOn (unsigned : idxT.signed = false) (unsigned' : alph.signed = false)
    (data : List UInt8) : GoesOn idxT alph data :=
  fun algorithm goOn max texts => ⟨_, init_eq unsigned unsigned' algorithm goOn max texts⟩

theorem init_not_rejects (unsigned : idxT.signed = false) (unsigned' : alph.signed = false)
    (data : List UInt8) : ¬ Rejects idxT alph data := by
  intro rejects
  obtain ⟨texts, run⟩ := rejects (fun _ _ => pure []) (fun _ => pure (.searched (0, 0))) 0 []
  rw [init_eq unsigned unsigned'] at run
  exact nomatch run

/-- Every corpus goes through, so the check keeps its promise on those that need not be stopped. -/
theorem stopsOversized_iff (unsigned : idxT.signed = false) (unsigned' : alph.signed = false)
    (data : List UInt8) : StopsOversized idxT alph data ↔ data.length < 2 ^ idxT.bits - 1 := by
  constructor
  · intro stops
    exact stops.1 (init_goesOn unsigned unsigned' data)
  · intro small
    constructor
    · exact fun _ => small
    · exact fun large => absurd small (Nat.not_lt_of_le large)

theorem stopsOversized_ab : StopsOversized indexType alphabetType [97, 98] :=
  (stopsOversized_iff rfl rfl [97, 98]).mpr (by decide)

/-- One byte less and the naive sort still finishes: its result, in which the end of the data is
the marker, is searched or stored after two remarks. -/
theorem naive_goes_on (env : Environment) {data : List UInt8} (full : data.length = 2 ^ 32 - 1)
    (hsort : SortsUnder env.sort (Naive.comp data)) :
    ∃ SA, IsSuffixArray data SA ∧ ∀ (goOn : List Nat → Console Done) (max : Nat),
      init indexType alphabetType (naiveSA env false) goOn data max [] =
        goOn SA (sizeTexts indexType data.length ++ sizeTexts indexType data.length) := by
  have fits : data.length < 2 ^ InducedSorting.idxBits := by
    simp only [InducedSorting.idxBits]
    omega
  have parallel := Naive.mergeSort_sortsUnder data
  obtain ⟨SA, run, hSA⟩ := Naive.makeSA_eq fits hsort parallel false
  refine ⟨SA, hSA, fun goOn max => ?_⟩
  rw [init_eq rfl rfl, List.nil_append]
  have naive : ∀ texts, naiveSA env false data max texts =
      .ok (SA, texts ++ sizeTexts indexType data.length) := by
    intro texts
    change (checkDataSizeIdxT indexType (data.length % 2 ^ indexType.bits) texts >>= _) = _
    rw [checkDataSizeIdxT_eq]
    change ofRun (Naive.makeSA env.sort env.parallelSort false data) _ = _
    have same : Naive.makeSA env.sort env.parallelSort false data = .ok SA := run
    rw [same]
    rfl
  change (naiveSA env false data max _ >>= fun result => goOn result.1 result.2) = _
  rw [naive]
  rfl

/-- A corpus of `2 ^ 32` bytes is not even remarked on. -/
theorem oversized_goes_on :
    (∀ (algorithm : List UInt8 → Nat → Console (List Nat)) (goOn : List Nat → Console Done)
      (max : Nat) (texts : List String), init indexType alphabetType algorithm goOn
        (List.replicate (2 ^ 32) 97) max texts =
          (algorithm (List.replicate (2 ^ 32) 97) max >>= goOn) texts) ∧
    ¬ ∀ (idxT : IntType) (data : List UInt8), idxT.signed = false →
      StopsOversized idxT alphabetType data := by
  constructor
  · intro algorithm goOn max texts
    rw [init_eq rfl rfl, sizeTexts, List.length_replicate, if_neg (by decide), List.append_nil]
  · intro claim
    have small := (stopsOversized_iff rfl rfl _).mp
      (claim indexType (List.replicate (2 ^ 32) 97) rfl)
    rw [List.length_replicate] at small
    exact absurd small (by decide)

end SizeCheck

end SuffixArray.Program
