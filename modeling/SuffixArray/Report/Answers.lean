import SuffixArray.History
import SuffixArray.Report.Text

/-!
# A run and what it prints

Without its output a run of the program is the run as it was. With it, a search of a file
and a search of the index of a file print the occurrences in the text, each on its line.
-/

namespace SuffixArray.Report

open Checked Console
open Program (chars init makeTables patternBytes reported Environment)
open Search (MatchRange)
open SuffixOrder (IsSuffixArray)

section Erasure

variable {α β γ : Type}

/-- What `m` returns, apart from its second half, `m'` returns as well. -/
def Erases (m : Console (β × γ)) (m' : Console β) : Prop :=
  ∀ texts b c texts', m texts = .ok ((b, c), texts') → m' texts = .ok (b, texts')

theorem Erases.bind (m : Console α) {f : α → Console (β × γ)} {f' : α → Console β}
    (h : ∀ a, Erases (f a) (f' a)) : Erases (m >>= f) (m >>= f') := by
  intro texts b c texts' run
  change (m texts >>= fun result => f result.1 result.2) = _ at run
  change (m texts >>= fun result => f' result.1 result.2) = _
  cases hm : m texts with
  | error stop =>
      rw [hm] at run
      cases run
  | ok result =>
      rw [hm] at run
      exact h result.1 result.2 b c texts' run

theorem Erases.output (b : β) (run : Run γ) :
    Erases (do
      let out ← ofRun run
      return (b, out)) (pure b) := by
  intro texts b' c texts' h
  cases run with
  | error fault => cases h
  | ok out =>
      obtain ⟨same, rfl⟩ := Prod.mk.inj (Except.ok.inj h)
      obtain ⟨rfl, -⟩ := Prod.mk.inj same
      rfl

theorem Erases.pure (b : β) (c : γ) : Erases (pure (b, c)) (pure b) := Erases.output b (.ok c)

theorem Erases.fail (text : String) : Erases (fail text : Console (β × γ)) (fail text) := by
  intro texts b c texts' h
  cases h

end Erasure

section Program

variable {env : Environment} {args : List String} {modes : Modes}

theorem storeOrSearch_erases (outF pattern sw : String) (lcp cmpr : Bool) (data : List UInt8)
    (SA : List Nat) : Erases (storeOrSearch env outF pattern sw lcp cmpr data SA)
      (Program.storeOrSearch env outF pattern lcp cmpr data SA) := by
  refine .bind _ fun tables => ?_
  split
  · exact .bind _ fun range => .output _ _
  · exact .bind _ fun image => .pure _ _

theorem construct_erases (modes : Modes) :
    Erases (construct env modes) (Program.construct env modes) := by
  have sw : reported modes "SubstringWidth" = pure (modes.value "SubstringWidth") :=
    Program.reported_value modes (by decide)
  rw [construct, sw]
  refine .bind _ fun inFile => .bind _ fun filterNewline => .bind _ fun corpus =>
    .bind _ fun name => .bind _ fun outFile => .bind _ fun pattern => .bind _ fun useLCP => ?_
  rw [pure_bind]
  refine .bind _ fun tryCompression => .bind _ fun _ => .bind _ fun _ => .bind _ fun _ =>
    .bind _ fun SA => storeOrSearch_erases _ _ _ _ _ _ _

theorem findInfixInF_erases (pattern fName sw : String) :
    Erases (findInfixInF env pattern fName sw) (Program.findInfixInF env pattern fName) := by
  rw [findInfixInF, Program.findInfixInF]
  split
  · exact .bind _ fun range => .output _ _
  · exact .fail _

/-- The output changes nothing: what a run that prints returns, the run returns. -/
theorem main_erases (args : List String) : Erases (main env args) (Program.main env args) := by
  refine .bind _ fun modes => .bind _ fun pattern => ?_
  split
  · exact construct_erases modes
  · refine .bind _ fun inFile => ?_
    split
    · exact .fail _
    · have sw : reported modes "SubstringWidth" = pure (modes.value "SubstringWidth") :=
        Program.reported_value modes (by decide)
      rw [sw, pure_bind]
      exact findInfixInF_erases _ _ _

variable {text image bytes : List UInt8} {SA : List Nat} {name : String}

/-- The constructor in its fields, on an admitted text. -/
theorem construct_goesOn (file : env.files (modes.value "InFile") = some bytes)
    (admits : Program.Admits env (Program.textOf (modes.flag "FilterNewline") bytes))
    (hSA : IsSuffixArray (Program.textOf (modes.flag "FilterNewline") bytes) SA) :
    construct env modes = storeOrSearch env (modes.value "OutFile") (modes.value "Infix")
      (modes.value "SubstringWidth") (modes.flag "useLCP") (modes.flag "TryCompression")
      (Program.textOf (modes.flag "FilterNewline") bytes) SA := by
  have known : ∀ {key : String}, (Modes.slotOfKey key).isSome = true →
      reported modes key = pure (modes.value key) := Program.reported_value modes
  rw [construct, known (by decide : (Modes.slotOfKey "InFile").isSome = true),
    known (by decide : (Modes.slotOfKey "FilterNewline").isSome = true),
    known (by decide : (Modes.slotOfKey "Algorithm").isSome = true),
    known (by decide : (Modes.slotOfKey "OutFile").isSome = true),
    known (by decide : (Modes.slotOfKey "Infix").isSome = true),
    known (by decide : (Modes.slotOfKey "useLCP").isSome = true),
    known (by decide : (Modes.slotOfKey "SubstringWidth").isSome = true),
    known (by decide : (Modes.slotOfKey "TryCompression").isSome = true)]
  simp only [pure_bind]
  obtain ⟨corpus, run, data, bounds⟩ := Program.readData_ok file admits.two
  change (Program.readData env (modes.value "InFile") (modes.flag "FilterNewline") >>= _) = _
  rw [run, pure_bind, data, init, Program.checkDataSize_ok admits,
    Program.algorithm_ok admits hSA _ data bounds]
  rfl

/-- `main FILE PATTERN` prints the occurrences in the text of the file. -/
theorem main_answers (made : Modes.make args = .ok modes)
    (file : env.files (modes.value "InFile") = some bytes)
    (admits : Program.Admits env (Program.textOf (modes.flag "FilterNewline") bytes))
    (plain : modes.flag "useLCP" = false) (short : modes.shortInput = true)
    (pattern : modes.value "Infix" ≠ "") :
    ∃ SA range out, main env args = pure (.searched range, out) ∧
      IsSuffixArray (Program.textOf (modes.flag "FilterNewline") bytes) SA ∧
      MatchRange (Program.textOf (modes.flag "FilterNewline") bytes) SA
        (patternBytes (modes.value "Infix")) range ∧
      Answers (Program.textOf (modes.flag "FilterNewline") bytes) SA (modes.value "Infix")
        (patternBytes (modes.value "SubstringWidth")) range out := by
  obtain ⟨SA, hSA⟩ := admits.exists_SA
  obtain ⟨range, search, found⟩ :=
    Search.findAllInfix_plain_eq admits.fits hSA (chars (modes.value "Infix"))
  obtain ⟨out, printed, answers⟩ :=
    report_ok (patternBytes (modes.value "SubstringWidth")) admits.fits hSA pattern found
  refine ⟨SA, range, out, ?_, hSA, found, answers⟩
  have infixIn : reported modes "Infix" = pure (modes.value "Infix") :=
    Program.reported_value modes (by decide)
  have tables : makeTables false (Program.textOf (modes.flag "FilterNewline") bytes) SA =
    .ok ([], []) := rfl
  rw [main, made, ofExcept_ok, pure_bind, infixIn, pure_bind, if_pos (Or.inl short),
    construct_goesOn file admits hSA, plain, storeOrSearch, tables, ofRun_ok, pure_bind,
    if_pos pattern, search, ofRun_ok, pure_bind, printed, ofRun_ok, pure_bind]

theorem main_answers_ab : ∃ SA range out,
    main Program.oneFile ["balack_small.txt", "b", "-sw", "3"] = pure (.searched range, out) ∧
      IsSuffixArray (Program.textOf false [97, 98]) SA ∧
      MatchRange (Program.textOf false [97, 98]) SA (patternBytes "b") range ∧
      Answers (Program.textOf false [97, 98]) SA "b" (patternBytes "3") range out := by
  have made : Modes.make ["balack_small.txt", "b", "-sw", "3"] = .ok
      { shortInput := true,
        modes := #v["SA_DATA", "-is", "b", "balack_small.txt", "3", "", "", ""] } := by decide
  exact main_answers made (by decide) Program.oneFile_admits (by decide) rfl (by decide)

/-- A run that searches an index. -/
theorem main_find (made : Modes.make args = .ok modes) (long : modes.shortInput = false)
    (pattern : modes.value "Infix" ≠ "") (named : modes.value "InFile" ≠ "") :
    main env args = findInfixInF env (modes.value "Infix") (modes.value "InFile")
      (modes.value "SubstringWidth") := by
  have infixIn : reported modes "Infix" = pure (modes.value "Infix") :=
    Program.reported_value modes (by decide)
  have inFile : reported modes "InFile" = pure (modes.value "InFile") :=
    Program.reported_value modes (by decide)
  have width : reported modes "SubstringWidth" = pure (modes.value "SubstringWidth") :=
    Program.reported_value modes (by decide)
  rw [main, made, ofExcept_ok, pure_bind, infixIn, pure_bind, if_neg (by simp [long, pattern]),
    inFile, pure_bind, if_neg named, width, pure_bind]

/-- `main -f PATTERN -i FILE` prints the occurrences in the text that the index is of. -/
theorem main_answers_stored (made : Modes.make args = .ok modes)
    (stores : Program.Stores text false image)
    (file : env.files (modes.value "InFile") = some image)
    (long : modes.shortInput = false) (pattern : modes.value "Infix" ≠ "")
    (named : modes.value "InFile" ≠ "") :
    ∃ SA range out, main env args = pure (.searched range, out) ∧ IsSuffixArray text SA ∧
      MatchRange text SA (patternBytes (modes.value "Infix")) range ∧
      Answers text SA (modes.value "Infix") (patternBytes (modes.value "SubstringWidth"))
        range out := by
  obtain ⟨SA, hSA, written⟩ := stores.written
  obtain ⟨other, written', read⟩ :=
    Container.read_write_plain (Program.contents_fits stores.fits hSA) env.unset [] []
  obtain rfl := Except.ok.inj (written.symm.trans written')
  obtain ⟨range, search, found⟩ :=
    Search.findAllInfix_plain_eq stores.fits hSA (chars (modes.value "Infix"))
  obtain ⟨out, printed, answers⟩ :=
    report_ok (patternBytes (modes.value "SubstringWidth")) stores.fits hSA pattern found
  refine ⟨SA, range, out, ?_, hSA, found, answers⟩
  rw [main_find made long pattern named, findInfixInF]
  rw [file, Container.fresh, read, if_pos rfl]
  change (ofRun (Search.findAllInfix env.fuel env.past (chars (modes.value "Infix")) text
    SA [] []) >>= _) = _
  rw [search, ofRun_ok, pure_bind]
  change (ofRun (report (modes.value "Infix") range SA text
    (patternBytes (modes.value "SubstringWidth"))) >>= _) = _
  rw [printed, ofRun_ok, pure_bind]

theorem main_answers_stored_ab : ∃ SA range out,
    main { Program.oneFile with files := fun _ => some Program.abImage }
      ["-f", "b", "-i", "SA_DATA", "-sw", "3"] = pure (.searched range, out) ∧
      IsSuffixArray ([97, 98] : List UInt8) SA ∧
      MatchRange [97, 98] SA (patternBytes "b") range ∧
      Answers [97, 98] SA "b" (patternBytes "3") range out := by
  have made : Modes.make ["-f", "b", "-i", "SA_DATA", "-sw", "3"] = .ok
      { shortInput := false,
        modes := #v["SA_DATA", "-is", "b", "SA_DATA", "3", "", "", ""] } := by decide
  exact main_answers_stored made Program.abImage_stores rfl rfl (by decide) (by decide)

end Program

end SuffixArray.Report
