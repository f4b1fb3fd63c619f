import SuffixArray.Program

/-!
# From the command line to the branch of `init`

`main` asks the fields whether to search a stored file or to go through `init`, and
`init` asks the pattern whether to write a file. A pattern that reaches `init` is safe;
one that `check_short_input` has replaced is not.
-/

namespace SuffixArray.Program

open Checked Console
open Modes (Faithful Item KeepsPattern Opt faithful_iff given)

/-- No run writes a data file. -/
def NeverWrites (env : Environment) (args : List String) : Prop :=
  Yields (main env args) fun done => ∀ outF image, done ≠ .wrote outF image

variable (env : Environment) {modes : Modes} {pattern : String}

/-- With a pattern `init` searches. -/
theorem storeOrSearch_yields (outF : String) (lcp cmpr : Bool) (data : List UInt8) (SA : List Nat)
    (nonempty : pattern ≠ "") : Yields (storeOrSearch env outF pattern lcp cmpr data SA)
      fun done => ∀ outF image, done ≠ .wrote outF image := by
  rw [storeOrSearch]
  apply Yields.bind_any
  intro tables
  rw [if_pos nonempty]
  apply Yields.bind_any
  intro range
  apply Yields.pure
  exact fun _ _ same => nomatch same

theorem findInfixInF_yields (pattern fName : String) :
    Yields (findInfixInF env pattern fName) fun done => ∀ outF image, done ≠ .wrote outF image := by
  rw [findInfixInF]
  split
  · apply Yields.bind_any
    intro range
    apply Yields.pure
    exact fun _ _ same => nomatch same
  · exact Yields.fail _

theorem init_yields {β : Type} {P : β → Prop} (idxT alph : IntType)
    (algorithm : List UInt8 → Nat → Console (List Nat)) {goOn : List Nat → Console β}
    (data : List UInt8) (max : Nat) (h : ∀ SA, Yields (goOn SA) P) :
    Yields (init idxT alph algorithm goOn data max) P := by
  rw [init]
  apply Yields.bind_any
  intro _
  apply Yields.bind_any
  intro _
  apply Yields.bind_any
  intro _
  exact Yields.bind_any h

theorem reported_eq {key value : String} (h : modes.get key = .ok value) :
    reported modes key = pure value := by
  rw [reported, h, ofExcept_ok]

theorem construct_yields (h : modes.get "Infix" = .ok pattern) (nonempty : pattern ≠ "") :
    Yields (construct env modes) fun done => ∀ outF image, done ≠ .wrote outF image := by
  rw [construct, reported_eq h]
  apply Yields.bind_any
  intro inFile
  apply Yields.bind_any
  intro filterNewline
  apply Yields.bind_any
  intro corpus
  apply Yields.bind_any
  intro name
  apply Yields.bind_any
  intro outFile
  rw [pure_bind]
  apply Yields.bind_any
  intro useLCP
  apply Yields.bind_any
  intro tryCompression
  exact init_yields _ _ _ _ _ fun SA => storeOrSearch_yields env _ _ _ _ SA nonempty

/-- With a pattern in its field the program never writes. -/
theorem main_yields {args : List String} (made : Modes.make args = .ok modes)
    (h : modes.get "Infix" = .ok pattern) (nonempty : pattern ≠ "") : NeverWrites env args := by
  rw [NeverWrites, main, made, ofExcept_ok, pure_bind, reported_eq h, pure_bind]
  split
  · exact construct_yields env h nonempty
  · apply Yields.bind_any
    intro inFile
    split
    · exact Yields.fail _
    · exact findInfixInF_yields env pattern inFile

/-- What a command line is faithfully turned into: its fields, and with a pattern no run that
writes a data file. -/
def Dispatched (items : List Item) (modes : Modes) : Prop :=
  Faithful items modes ∧ ((∃ value, given Opt.find.slot items = some value ∧ value ≠ "") →
    ∀ env, NeverWrites env (items.flatMap Item.words))

/-- Where the constructor returns, its arguments are a list of items, and they are faithfully
reported and dispatched just when a pattern given with `-f` is kept. -/
theorem dispatched_iff {args : List String} (made : Modes.make args = .ok modes) :
    (∃ items : List Item, args = items.flatMap Item.words) ∧
      ∀ items : List Item, args = items.flatMap Item.words →
        (Dispatched items modes ↔ KeepsPattern items) := by
  constructor
  · rw [Modes.make] at made
    cases hparse : Modes.parse args
        { modes := Modes.initial, shortInputArg1 := "", shortInputArg2 := "" } with
    | error text =>
        rw [hparse] at made
        cases made
    | ok parsed => exact Modes.exists_items hparse
  · rintro items rfl
    constructor
    · exact fun dispatched => (faithful_iff made).mp dispatched.1
    · intro keeps
      have faithful := (faithful_iff made).mpr keeps
      refine ⟨faithful, ?_⟩
      rintro ⟨value, hgiven, hne⟩ env
      exact main_yields env made (faithful.options .find value hgiven hne) hne

theorem dispatched_iff_manual : Dispatched [.option .find "was", .option .input "SA_DATA"]
    { shortInput := false, modes := #v["SA_DATA", "-is", "was", "SA_DATA", "", "", "", ""] } := by
  have made : Modes.make ["-f", "was", "-i", "SA_DATA"] = .ok
      { shortInput := false, modes := #v["SA_DATA", "-is", "was", "SA_DATA", "", "", "", ""] } := by
    decide
  refine ((dispatched_iff made).2 _ rfl).mpr ?_
  rintro value - - hinput
  exact absurd hinput (by decide)

/-- A directory with one text of two characters. -/
def oneFile : Environment where
  files fName := if fName = "balack_small.txt" then some [97, 98] else none
  sort comp l := l.mergeSort fun i j => !comp j i
  parallelSort comp l := l.mergeSort fun i j => !comp j i
  past _ := none
  unset := { cmpr := false, dataSize := 0, maxIdxSize := 0, useLcp := false, s := 0, idx := 0 }
  fuel := 2

/-- `-f was FILE` loses the pattern and writes the index anew. -/
theorem pattern_dropped :
    main oneFile ["-f", "was", "balack_small.txt"] [] = .ok (.wrote "SA_DATA"
      [0, 2, 0, 0, 0, 97, 98, 2, 0, 0, 0, 0, 0, 0, 0, 1, 0, 0, 0, 0], []) ∧
    ¬ ∀ (args : List String) (modes : Modes), Modes.make args = .ok modes →
      ∀ items : List Item, args = items.flatMap Item.words → Dispatched items modes := by
  have run : main oneFile ["-f", "was", "balack_small.txt"] [] = .ok (.wrote "SA_DATA"
      [0, 2, 0, 0, 0, 97, 98, 2, 0, 0, 0, 0, 0, 0, 0, 1, 0, 0, 0, 0], []) := by decide +kernel
  refine ⟨run, fun claim => ?_⟩
  have made : Modes.make ["-f", "was", "balack_small.txt"] = .ok
      { shortInput := true,
        modes := #v["SA_DATA", "-is", "", "balack_small.txt", "", "", "", ""] } := by decide
  have dispatched := claim _ _ made
    [.option .find "was", .word ⟨"balack_small.txt", by decide⟩] rfl
  exact dispatched.2 ⟨"was", rfl, by decide⟩ oneFile [] _ _ run _ _ rfl

end SuffixArray.Program
