import SuffixArray.Container.Plain
import SuffixArray.LcpRun
import SuffixArray.PlainSearch
import SuffixArray.Dispatch

/-!
# The constructor as a whole

From the bytes of the input file to what the constructor ends with. Without the interval
tables it stores the suffix array of the text or returns the ranks of the occurrences, and
neither the algorithm nor the library sorts leave a trace in the result. With them it does
not return at all.
-/

namespace SuffixArray.Program

open Checked Console SuffixOrder
open Container (Contents)
open Naive (SortsUnder)
open Search (MatchRange)

section ReadData

/-- What `read_data` makes of the bytes of a file. -/
def textOf (filtEndline : Bool) (bytes : List UInt8) : List UInt8 :=
  if filtEndline then bytes.filter (· ≠ 10) else bytes

theorem readStream_data (filtEndline : Bool) (bytes : List UInt8) (corpus : ReadData.Corpus) :
    (ReadData.readStream filtEndline (bytes.map UInt8.toInt8) corpus).data =
      corpus.data ++ textOf filtEndline bytes := by
  have newline : ∀ b : UInt8, b.toInt8 ≠ 10 ↔ b ≠ 10 := by
    intro b
    rw [not_iff_not]
    exact ⟨fun h => by rw [← UInt8.toUInt8_toInt8 b, h]; rfl, fun h => by rw [h]; rfl⟩
  rw [ReadData.readStream, textOf]
  induction bytes generalizing corpus with
  | nil => cases filtEndline <;> simp
  | cons b bytes ih =>
      have char : ReadData.alphOfChar b.toInt8 = b := UInt8.toUInt8_toInt8 b
      cases filtEndline with
      | false =>
          simp only [Bool.false_eq_true, if_false, List.map_cons, List.foldl_cons] at ih ⊢
          rw [ih, ReadData.readChar, char, List.append_assoc, List.singleton_append]
      | true =>
          simp only [if_true, List.map_cons, List.foldl_cons] at ih ⊢
          rw [ih, ReadData.readFiltered_eq]
          by_cases hb : b = 10
          · rw [if_neg (by simp [hb]), List.filter_cons_of_neg (by simp [hb])]
          · rw [if_pos ((newline b).mpr hb), List.filter_cons_of_pos (by simp [hb]),
              ReadData.readChar, char, List.append_assoc, List.singleton_append]

variable {env : Environment} {fName : String} {filtEndline : Bool} {bytes : List UInt8}

/-- `read_data` accepts a text of two bytes, with bounds of what it has stored. -/
theorem readData_ok (file : env.files fName = some bytes)
    (two : 2 ≤ (textOf filtEndline bytes).length) :
    ∃ corpus : ReadData.Corpus, readData env fName filtEndline = pure corpus ∧
      corpus.data = textOf filtEndline bytes ∧ ReadData.Bounds corpus := by
  have data := readStream_data filtEndline bytes ReadData.start
  rw [ReadData.start, List.nil_append, ← ReadData.start] at data
  have accepted : ReadData.readData (some (bytes.map UInt8.toInt8)) filtEndline ReadData.start =
      (true, ReadData.readStream filtEndline (bytes.map UInt8.toInt8) ReadData.start) := by
    rw [ReadData.readData]
    rw [data, if_neg (by omega), if_neg (by omega)]
  refine ⟨_, ?_, data, (ReadData.readData_bounds accepted).2⟩
  rw [readData, file, Option.map_some, accepted]
  rfl

/-- Any other file ends the run. -/
theorem readData_exits (rejected : ∀ bytes, env.files fName = some bytes →
    (textOf filtEndline bytes).length < 2) (texts : List String) :
    ∃ texts', readData env fName filtEndline texts = .error (.exit texts') := by
  have failed : (ReadData.readData ((env.files fName).map (List.map UInt8.toInt8)) filtEndline
      ReadData.start).1 = false := by
    cases hfile : env.files fName with
    | none => rfl
    | some bytes =>
        have data := readStream_data filtEndline bytes ReadData.start
        rw [ReadData.start, List.nil_append, ← ReadData.start] at data
        have short := rejected bytes hfile
        rw [Option.map_some, ReadData.readData]
        rw [data, if_pos short, ite_self]
  rw [readData, failed, if_neg Bool.false_ne_true]
  exact ⟨_, rfl⟩

end ReadData

section Algorithm

/-- What a run on this text relies on. -/
structure Admits (env : Environment) (text : List UInt8) : Prop where
  two : 2 ≤ text.length
  small : text.length < 2 ^ 32 - 1
  sort : SortsUnder env.sort (Naive.comp text)
  parallelSort : SortsUnder env.parallelSort (Naive.comp text)
  fuel : text.length ≤ env.fuel

variable {env : Environment} {text : List UInt8}

theorem Admits.fits (admits : Admits env text) : text.length + 1 < 2 ^ InducedSorting.idxBits := by
  have := admits.small
  simp only [InducedSorting.idxBits]
  omega

theorem Admits.exists_SA (admits : Admits env text) : ∃ SA, IsSuffixArray text SA := by
  obtain ⟨SA, -, hSA⟩ := Naive.makeSA_eq (Nat.lt_of_succ_lt admits.fits) admits.sort
    admits.parallelSort false
  exact ⟨SA, hSA⟩

/-- The size of an admitted text passes its check without a remark. -/
theorem checkDataSize_ok (admits : Admits env text) :
    checkDataSizeIdxT indexType (text.length % 2 ^ indexType.bits) = pure () := by
  have small : text.length < 2 ^ indexType.bits - 1 := admits.small
  rw [checkDataSizeIdxT, Nat.mod_eq_of_lt (by omega), if_neg (by omega)]

theorem naiveSA_ok (admits : Admits env text) {SA : List Nat} (hSA : IsSuffixArray text SA)
    (p : Bool) (max : Nat) : naiveSA env p text max = pure SA := by
  obtain ⟨other, run, hother⟩ := Naive.makeSA_eq (Nat.lt_of_succ_lt admits.fits) admits.sort
    admits.parallelSort p
  have run' : Naive.makeSA env.sort env.parallelSort p text = .ok SA := hother.unique hSA ▸ run
  rw [naiveSA, checkDataSize_ok admits]
  change ofRun (Naive.makeSA env.sort env.parallelSort p text) = _
  rw [run', ofRun_ok]

/-- Whichever algorithm is named, the suffix array comes out. -/
theorem algorithm_ok (admits : Admits env text) {SA : List Nat} (hSA : IsSuffixArray text SA)
    (name : String) {corpus : ReadData.Corpus} (data : corpus.data = text)
    (bounds : ReadData.Bounds corpus) :
    algorithm env name corpus.min text corpus.max = pure SA := by
  subst data
  rw [algorithm]
  split
  · exact naiveSA_ok admits hSA false _
  · split
    · exact naiveSA_ok admits hSA true _
    · have two := admits.two
      have level := InducedSorting.isLevel_bytes (by omega) admits.small bounds.lower bounds.upper
      have byte : corpus.max + 1 < 2 ^ InducedSorting.idxBits :=
        Nat.lt_of_le_of_lt (Nat.succ_le_of_lt bounds.byte) (by decide)
      obtain ⟨other, run, hother⟩ := InducedSorting.run_eq level byte admits.fuel
      have same := ((isSuffixArray_map_iff toNat_strictMono).mp hother).unique hSA
      rw [run, same, ofRun_ok]

end Algorithm

section Constructor

variable {env : Environment} {modes : Modes} {text : List UInt8} {SA : List Nat}

/-- The keys that the program asks for are known. -/
theorem reported_value (modes : Modes) {key : String}
    (known : (Modes.slotOfKey key).isSome = true) :
    reported modes key = pure (modes.value key) := reported_eq (modes.get_value known)

/-- A text and its suffix array, without the tables. -/
def contentsOf (text : List UInt8) (SA : List Nat) : Contents :=
  { data := text, SA := SA, lcpL := [], lcpR := [] }

/-- The file that a suffix array without tables is stored in. -/
structure Stores (text : List UInt8) (cmpr : Bool) (image : List UInt8) : Prop where
  fits : text.length + 1 < 2 ^ InducedSorting.idxBits
  written : ∃ SA, IsSuffixArray text SA ∧
    Container.write (contentsOf text SA) cmpr = .ok image

/-- What `write` is handed is what it asks for. -/
theorem contents_fits (fits : text.length + 1 < 2 ^ InducedSorting.idxBits)
    (hSA : IsSuffixArray text SA) : (contentsOf text SA).Fits where
  size := fits
  entries := hSA.length_eq
  words i hi := Nat.lt_of_le_of_lt (hSA.mem_iff.mp hi) (Nat.lt_of_succ_lt fits)
  tables := Or.inl ⟨rfl, rfl⟩
  rowSizes := by simp [contentsOf]
  rowWords := by simp [contentsOf]

/-- `-f` or the second word, as it is compared with the text: the bytes that its characters, all
below 256, stand for. -/
def patternBytes (pattern : String) : List UInt8 := (chars pattern).map ReadData.alphOfChar

/-- What the constructor may end with. -/
inductive Ends (text : List UInt8) (outF pattern : String) (cmpr : Bool) : Done → Prop
  | stored {image : List UInt8} : pattern = "" → Stores text cmpr image →
      Ends text outF pattern cmpr (.wrote outF image)
  | found {SA : List Nat} {range : Nat × Nat} : pattern ≠ "" → IsSuffixArray text SA →
      MatchRange text SA (patternBytes pattern) range →
      Ends text outF pattern cmpr (.searched range)

theorem Stores.unique {cmpr : Bool} {image other : List UInt8} (h : Stores text cmpr image)
    (h' : Stores text cmpr other) : image = other := by
  obtain ⟨SA, hSA, run⟩ := h.written
  obtain ⟨SA', hSA', run'⟩ := h'.written
  obtain rfl := hSA.unique hSA'
  exact Except.ok.inj (run.symm.trans run')

/-- There is one end. -/
theorem Ends.unique {outF pattern : String} {cmpr : Bool} {done other : Done}
    (h : Ends text outF pattern cmpr done) (h' : Ends text outF pattern cmpr other) :
    done = other := by
  cases h with
  | stored _ stores =>
      cases h' with
      | stored _ stores' => rw [stores.unique stores']
      | found nonempty _ _ => contradiction
  | found _ hSA range =>
      cases h' with
      | stored _ _ => contradiction
      | found _ hSA' range' =>
          obtain rfl := hSA.unique hSA'
          rw [range.unique range']

/-- Without tables everything behind the algorithm returns. -/
theorem storeOrSearch_ok (admits : Admits env text) (hSA : IsSuffixArray text SA)
    (outF pattern : String) (cmpr : Bool) :
    ∃ done, storeOrSearch env outF pattern false cmpr text SA = pure done ∧
      Ends text outF pattern cmpr done := by
  have tables : makeTables false text SA = .ok ([], []) := rfl
  rw [storeOrSearch, tables, ofRun_ok, pure_bind]
  by_cases empty : pattern = ""
  · have fits := contents_fits admits.fits hSA
    obtain ⟨image, run⟩ : ∃ image, Container.write (contentsOf text SA) cmpr = .ok image := by
      cases cmpr with
      | false => exact ⟨_, Container.write_plain_eq fits⟩
      | true => exact ⟨_, Container.write_compressed_eq fits.toShaped⟩
    refine ⟨.wrote outF image, ?_, .stored empty ⟨admits.fits, SA, hSA, run⟩⟩
    rw [contentsOf] at run
    rw [if_neg (not_not_intro empty), run, ofRun_ok, pure_bind]
  · obtain ⟨range, run, found⟩ :=
      Search.findAllInfix_plain_eq admits.fits hSA (chars pattern)
    refine ⟨.searched range, ?_, .found empty hSA found⟩
    rw [if_pos empty, run, ofRun_ok, pure_bind]

/-- The constructor in its fields. -/
theorem construct_eq (env : Environment) (modes : Modes) :
    construct env modes = (do
      let corpus ← readData env (modes.value "InFile") (modes.flag "FilterNewline")
      init indexType alphabetType (algorithm env (modes.value "Algorithm") corpus.min)
        (storeOrSearch env (modes.value "OutFile") (modes.value "Infix") (modes.flag "useLCP")
          (modes.flag "TryCompression") corpus.data)
        corpus.data corpus.max) := by
  have known : ∀ {key : String}, (Modes.slotOfKey key).isSome = true →
      reported modes key = pure (modes.value key) := reported_value modes
  rw [construct, known (by decide : (Modes.slotOfKey "InFile").isSome = true),
    known (by decide : (Modes.slotOfKey "FilterNewline").isSome = true),
    known (by decide : (Modes.slotOfKey "Algorithm").isSome = true),
    known (by decide : (Modes.slotOfKey "OutFile").isSome = true),
    known (by decide : (Modes.slotOfKey "Infix").isSome = true),
    known (by decide : (Modes.slotOfKey "useLCP").isSome = true),
    known (by decide : (Modes.slotOfKey "TryCompression").isSome = true)]
  simp only [pure_bind]
  rfl

/-- On an admitted text the constructor goes on with the suffix array. -/
theorem construct_goesOn {bytes : List UInt8} (file : env.files (modes.value "InFile") = some bytes)
    (admits : Admits env (textOf (modes.flag "FilterNewline") bytes))
    (hSA : IsSuffixArray (textOf (modes.flag "FilterNewline") bytes) SA) :
    construct env modes = storeOrSearch env (modes.value "OutFile") (modes.value "Infix")
      (modes.flag "useLCP") (modes.flag "TryCompression")
      (textOf (modes.flag "FilterNewline") bytes) SA := by
  obtain ⟨corpus, run, data, bounds⟩ := readData_ok file admits.two
  rw [construct_eq, run, pure_bind, data, init, checkDataSize_ok admits,
    algorithm_ok admits hSA _ data bounds]
  rfl

/-- Without the tables the constructor returns, and there is one way it can end. -/
theorem construct_ok {bytes : List UInt8} (file : env.files (modes.value "InFile") = some bytes)
    (admits : Admits env (textOf (modes.flag "FilterNewline") bytes))
    (plain : modes.flag "useLCP" = false) :
    ∃ done, construct env modes = pure done ∧
      Ends (textOf (modes.flag "FilterNewline") bytes) (modes.value "OutFile") (modes.value "Infix")
        (modes.flag "TryCompression") done := by
  obtain ⟨SA, hSA⟩ := admits.exists_SA
  rw [construct_goesOn file admits hSA, plain]
  exact storeOrSearch_ok admits hSA _ _ _

/-- `init` behind the tables. -/
def storeOrSearchIn (env : Environment) (modes : Modes) (data : List UInt8) (SA : List Nat)
    (tables : List (List Nat) × List (List Nat)) : Console Done :=
  if modes.value "Infix" ≠ "" then do
    let range ← ofRun (Search.findAllInfix env.fuel env.past (chars (modes.value "Infix")) data SA
      tables.1 tables.2)
    return .searched range
  else do
    let image ← ofRun (Container.write { data, SA, lcpL := tables.1, lcpR := tables.2 }
      (modes.flag "TryCompression"))
    return .wrote (modes.value "OutFile") image

/-- The constructor with any function in the place of `make_lcp`. -/
def constructWith (makeLcp : List UInt8 → List Nat → Run (List Nat)) (env : Environment)
    (modes : Modes) : Console Done := do
  let corpus ← readData env (modes.value "InFile") (modes.flag "FilterNewline")
  init indexType alphabetType (algorithm env (modes.value "Algorithm") corpus.min)
    (fun SA => do
      let tables ← ofRun (if modes.flag "useLCP" then do
          let neighbours ← makeLcp corpus.data SA
          LcpTables.makeLcpLr SA neighbours [] []
        else
          return ([], []))
      storeOrSearchIn env modes corpus.data SA tables)
    corpus.data corpus.max

theorem constructWith_makeLcp (env : Environment) (modes : Modes) :
    constructWith Lcp.makeLcp env modes = construct env modes := (construct_eq env modes).symm

/-- The constructor comes to its call of `make_lcp` with these arguments and goes on from the
result, whatever that may be. -/
def CallsMakeLcp (env : Environment) (modes : Modes) (text : List UInt8) (SA : List Nat) : Prop :=
  ∃ rest : List Nat → Console Done, ∀ makeLcp : List UInt8 → List Nat → Run (List Nat),
    constructWith makeLcp env modes = ofRun (makeLcp text SA) >>= rest

/-- With the tables it comes to that call. -/
theorem callsMakeLcp {bytes : List UInt8} (file : env.files (modes.value "InFile") = some bytes)
    (admits : Admits env (textOf (modes.flag "FilterNewline") bytes))
    (hSA : IsSuffixArray (textOf (modes.flag "FilterNewline") bytes) SA)
    (tables : modes.flag "useLCP" = true) :
    CallsMakeLcp env modes (textOf (modes.flag "FilterNewline") bytes) SA := by
  obtain ⟨corpus, run, data, bounds⟩ := readData_ok file admits.two
  refine ⟨fun neighbours => ofRun (LcpTables.makeLcpLr SA neighbours [] []) >>=
    storeOrSearchIn env modes (textOf (modes.flag "FilterNewline") bytes) SA, fun makeLcp => ?_⟩
  rw [constructWith, run, pure_bind, data, init, checkDataSize_ok admits,
    algorithm_ok admits hSA _ data bounds, tables]
  change ofRun (makeLcp _ SA >>= fun neighbours => LcpTables.makeLcpLr SA neighbours [] []) >>=
    storeOrSearchIn env modes _ SA = _
  rw [ofRun_bind, bind_assoc]

/-- The call leaves `SA`. -/
theorem construct_tables {bytes : List UInt8} (file : env.files (modes.value "InFile") = some bytes)
    (admits : Admits env (textOf (modes.flag "FilterNewline") bytes))
    (tables : modes.flag "useLCP" = true) :
    ∃ SA, IsSuffixArray (textOf (modes.flag "FilterNewline") bytes) SA ∧
      CallsMakeLcp env modes (textOf (modes.flag "FilterNewline") bytes) SA ∧
      Lcp.ReadsBehind (textOf (modes.flag "FilterNewline") bytes) SA := by
  have two := admits.two
  obtain ⟨SA, hSA⟩ := admits.exists_SA
  exact ⟨SA, hSA, callsMakeLcp file admits hSA tables,
    Lcp.readsBehind (by omega) admits.fits hSA⟩

/-- With the tables the constructor does not return. -/
theorem construct_fault {bytes : List UInt8} (file : env.files (modes.value "InFile") = some bytes)
    (admits : Admits env (textOf (modes.flag "FilterNewline") bytes))
    (tables : modes.flag "useLCP" = true) (texts : List String) :
    construct env modes texts = .error (.fault .outOfRange) := by
  obtain ⟨SA, -, ⟨rest, goesOn⟩, behind⟩ := construct_tables file admits tables
  rw [← constructWith_makeLcp, goesOn, behind.fault admits.fits]
  rfl

/-- A file that is missing or holds less than two bytes of text ends the run. -/
theorem construct_exits (rejected : ∀ bytes, env.files (modes.value "InFile") = some bytes →
    (textOf (modes.flag "FilterNewline") bytes).length < 2) (texts : List String) :
    ∃ texts', construct env modes texts = .error (.exit texts') := by
  obtain ⟨texts', run⟩ := readData_exits rejected texts
  refine ⟨texts', ?_⟩
  rw [construct_eq]
  change (readData env (modes.value "InFile") (modes.flag "FilterNewline") texts >>= _) = _
  rw [run]
  rfl

/-- The same arguments but for the algorithm. -/
def withAlgorithm (modes : Modes) (name : String) : Modes :=
  let parsed : Modes.Parsed := { modes := modes.modes, shortInputArg1 := "", shortInputArg2 := "" }
  { modes with modes := (parsed.set Modes.Flag.naive.field.1 name).modes }

theorem value_withAlgorithm (modes : Modes) (name : String) {key : String}
    (other : Modes.slotOfKey key ≠ some 1) :
    (withAlgorithm modes name).value key = modes.value key := by
  rw [Modes.value, Modes.value, Modes.get, Modes.get]
  cases hslot : Modes.slotOfKey key with
  | none => rfl
  | some slot =>
      have hne : 1 ≠ slot := fun same => other (hslot.trans (congrArg some same.symm))
      have kept : (modes.modes.set 1 name)[slot] = modes.modes[slot] :=
        (Modes.getElem_set modes.modes 1 slot name).trans (if_neg hne)
      exact congrArg (fun value => (Except.ok value : Except String String).toOption.getD "") kept

/-- Which algorithm is named, and how the library sorts among equals, makes no difference. -/
theorem construct_withAlgorithm {env' : Environment} {bytes : List UInt8}
    (file : env.files (modes.value "InFile") = some bytes) (same : env'.files = env.files)
    (admits : Admits env (textOf (modes.flag "FilterNewline") bytes))
    (admits' : Admits env' (textOf (modes.flag "FilterNewline") bytes)) (name : String) :
    construct env' (withAlgorithm modes name) = construct env modes := by
  have kept {key : String} (other : Modes.slotOfKey key ≠ some 1) :=
    value_withAlgorithm modes name other
  have flag {key : String} (other : Modes.slotOfKey key ≠ some 1) :
      (withAlgorithm modes name).flag key = modes.flag key := congrArg _ (kept other)
  have file' : env'.files ((withAlgorithm modes name).value "InFile") = some bytes := by
    rw [kept (by decide), same, file]
  have filter : (withAlgorithm modes name).flag "FilterNewline" = modes.flag "FilterNewline" :=
    flag (by decide)
  have admits'' : Admits env'
      (textOf ((withAlgorithm modes name).flag "FilterNewline") bytes) := by rwa [filter]
  cases tables : modes.flag "useLCP" with
  | false =>
      obtain ⟨done, run, ends⟩ := construct_ok file admits tables
      obtain ⟨done', run', ends'⟩ := construct_ok file' admits'' ((flag (by decide)).trans tables)
      rw [filter, kept (by decide : Modes.slotOfKey "OutFile" ≠ some 1),
        kept (by decide : Modes.slotOfKey "Infix" ≠ some 1),
        flag (by decide : Modes.slotOfKey "TryCompression" ≠ some 1)] at ends'
      rw [run, run', ends.unique ends']
  | true =>
      funext texts
      rw [construct_fault file admits tables,
        construct_fault file' admits'' ((flag (by decide)).trans tables)]

/-- The fields of `balack_small.txt` alone. -/
def abModes : Modes :=
  { shortInput := true, modes := #v["SA_DATA", "-is", "", "balack_small.txt", "", "", "", ""] }

theorem oneFile_admits : Admits oneFile [97, 98] where
  two := by decide
  small := by decide
  sort := Naive.mergeSort_sortsUnder _
  parallelSort := Naive.mergeSort_sortsUnder _
  fuel := by decide

theorem construct_withAlgorithm_ab :
    construct oneFile (withAlgorithm abModes "-np") = construct oneFile abModes :=
  construct_withAlgorithm (by decide : oneFile.files (abModes.value "InFile") = some [97, 98]) rfl
    oneFile_admits oneFile_admits "-np"

end Constructor

end SuffixArray.Program
