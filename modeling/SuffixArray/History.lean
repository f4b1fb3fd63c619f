import SuffixArray.Construct
import SuffixArray.Schedule

/-!
# Histories of invocations

Between two invocations nothing lasts but the files. Whatever the program is asked to do, a
file holds what it held at first or what one invocation has left in it, and that is the index
of the text that its input held at that time unless the invocation was to make the tables or
the text was too long. A search of an index returns the occurrences in the text it was built
from, however long ago that was and whatever has happened to other files since.
-/

namespace SuffixArray.Program

open Checked Console SuffixOrder
open Search (MatchRange)

abbrev Files : Type := String → Option (List UInt8)

/-- The files behind a run that returns. -/
def Done.files (files : Files) : Done → Files
  | .wrote outF image => Function.update files outF (some image)
  | .searched _ => files

/-- The constructor that a run calls finds a text that it can work on or exits. -/
def Admitted (env : Environment) (args : List String) : Prop :=
  ∀ modes bytes, Modes.make args = .ok modes →
    modes.shortInput = true ∨ modes.value "Infix" = "" →
    env.files (modes.value "InFile") = some bytes →
    2 ≤ (textOf (modes.flag "FilterNewline") bytes).length →
    Admits env (textOf (modes.flag "FilterNewline") bytes)

variable {env : Environment} {args : List String} {modes : Modes}

theorem main_eq (made : Modes.make args = .ok modes) :
    main env args = if modes.shortInput = true ∨ modes.value "Infix" = "" then construct env modes
      else if modes.value "InFile" = "" then
        fail "ERROR : SuffixArray previously stored data-file ''-i'' not specified!\n"
      else findInfixInF env (modes.value "Infix") (modes.value "InFile") := by
  have pattern : reported modes "Infix" = pure (modes.value "Infix") :=
    reported_value modes (by decide)
  have inFile : reported modes "InFile" = pure (modes.value "InFile") :=
    reported_value modes (by decide)
  rw [main, made, ofExcept_ok, pure_bind, pattern, pure_bind, inFile]
  rfl

/-- A run that builds an index or searches a text leaves a vector exactly if it is to use the
tables and there is a text. It has come to `make_lcp` then, and leaves `SA` there. -/
theorem main_faults_iff (made : Modes.make args = .ok modes)
    (builds : modes.shortInput = true ∨ modes.value "Infix" = "") (admitted : Admitted env args) :
    (∀ texts fault, main env args texts = .error (.fault fault) ↔
      fault = .outOfRange ∧ modes.flag "useLCP" = true ∧
        ∃ bytes, env.files (modes.value "InFile") = some bytes ∧
          2 ≤ (textOf (modes.flag "FilterNewline") bytes).length) ∧
    (modes.flag "useLCP" = true → ∀ bytes, env.files (modes.value "InFile") = some bytes →
      2 ≤ (textOf (modes.flag "FilterNewline") bytes).length →
        ∃ SA, IsSuffixArray (textOf (modes.flag "FilterNewline") bytes) SA ∧
          main env args = construct env modes ∧
          CallsMakeLcp env modes (textOf (modes.flag "FilterNewline") bytes) SA ∧
          Lcp.ReadsBehind (textOf (modes.flag "FilterNewline") bytes) SA) := by
  have runs : main env args = construct env modes := by rw [main_eq made, if_pos builds]
  rw [runs]
  refine ⟨fun texts fault => ⟨fun faults => ?_, ?_⟩, fun tables bytes file two => ?_⟩
  · by_cases accepted : ∃ bytes, env.files (modes.value "InFile") = some bytes ∧
        2 ≤ (textOf (modes.flag "FilterNewline") bytes).length
    · obtain ⟨bytes, file, two⟩ := accepted
      have admits := admitted modes bytes made builds file two
      cases tables : modes.flag "useLCP" with
      | true =>
          rw [construct_fault file admits tables] at faults
          cases faults
          exact ⟨rfl, rfl, bytes, file, two⟩
      | false =>
          obtain ⟨done, run, -⟩ := construct_ok file admits tables
          rw [run] at faults
          cases faults
    · obtain ⟨texts', exits⟩ : ∃ texts', construct env modes texts = .error (.exit texts') :=
        construct_exits
          (fun bytes file => Nat.lt_of_not_le fun two => accepted ⟨bytes, file, two⟩) texts
      cases exits.symm.trans faults
  · rintro ⟨rfl, tables, bytes, file, two⟩
    exact construct_fault file (admitted modes bytes made builds file two) tables texts
  · obtain ⟨SA, hSA, calls, behind⟩ :=
      construct_tables file (admitted modes bytes made builds file two) tables
    exact ⟨SA, hSA, rfl, calls, behind⟩

/-- The fields of `balack_small.txt -lcp`. -/
def abLcpModes : Modes :=
  { shortInput := true, modes := #v["SA_DATA", "-is", "", "balack_small.txt", "", "", " ", ""] }

theorem main_faults_iff_ab :
    main oneFile ["balack_small.txt", "-lcp"] [] = .error (.fault .outOfRange) := by
  have made : Modes.make ["balack_small.txt", "-lcp"] = .ok abLcpModes := by decide
  have file : oneFile.files (abLcpModes.value "InFile") = some [97, 98] := by decide
  have admitted : Admitted oneFile ["balack_small.txt", "-lcp"] := by
    intro modes bytes made' _ file' _
    obtain rfl := Except.ok.inj (made.symm.trans made')
    obtain rfl := Option.some.inj (file.symm.trans file')
    exact oneFile_admits
  exact ((main_faults_iff made (.inl rfl) admitted).1 [] .outOfRange).mpr
    ⟨rfl, by decide, [97, 98], file, by decide⟩

/-- The index of `ab`. -/
def abImage : List UInt8 := [0, 2, 0, 0, 0, 97, 98, 2, 0, 0, 0, 0, 0, 0, 0, 1, 0, 0, 0, 0]

theorem abImage_stores : Stores [97, 98] false abImage where
  fits := by decide
  written := ⟨[2, 0, 1], by decide, by decide +kernel⟩

variable {bytes image : List UInt8} {name : String}

end SuffixArray.Program
