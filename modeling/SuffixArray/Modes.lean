import Mathlib.Data.List.Basic

/-!
# The command line

The class `Modes` of `parseModes.hpp`. The constructor goes through the arguments with
a lookahead of one for the options that take a value, and `check_short_input` decides
afterwards what the arguments without an option are for. Either may print a message and
exit, which is an error here. A `std::string` has one character for each byte.

Over the loop stands the grammar it accepts: a command line is a list of items, and an
item is an option with its value, a flag or a word. The loop runs item by item, and a
field ends up with the value given last.
-/

namespace SuffixArray

structure Modes where
  shortInput : Bool
  modes : Vector String 8
  deriving DecidableEq, Repr

namespace Modes

def input : String := "-i"
def output : String := "-o"
def find : String := "-f"
def naive : String := "-n"
def naiveParallel : String := "-np"
def inducedSorting : String := "-is"
def tryCompression : String := "-tc"
def useLCP : String := "-lcp"
def substringWidth : String := "-sw"
def filterNewline : String := "-fn"

/-- The fields before the first argument. -/
def initial : Vector String 8 := ((Vector.replicate 8 "").set 0 "SA_DATA").set 1 inducedSorting

/-- The loop variables of the constructor. -/
structure Parsed where
  modes : Vector String 8
  shortInputArg1 : String
  shortInputArg2 : String
  deriving DecidableEq, Repr

/-- The field that an option with a value sets. -/
def optionSlot (arg : String) : Option (Fin 8) :=
  if arg = output then some 0
  else if arg = input then some 3
  else if arg = find then some 2
  else if arg = substringWidth then some 4
  else none

/-- The field that an option without a value sets, and to what. -/
def flagField (arg : String) : Option (Fin 8 × String) :=
  if arg = naive ∨ arg = naiveParallel ∨ arg = inducedSorting then some (1, arg)
  else if arg = tryCompression then some (5, " ")
  else if arg = useLCP then some (6, " ")
  else if arg = filterNewline then some (7, " ")
  else none

def Parsed.set (parsed : Parsed) (slot : Fin 8) (value : String) : Parsed :=
  { parsed with modes := parsed.modes.set slot value }

/-- An argument without an option. -/
def takeWord (parsed : Parsed) (arg : String) : Except String Parsed :=
  if parsed.shortInputArg1 = "" then .ok { parsed with shortInputArg1 := arg }
  else if parsed.shortInputArg2 = "" then .ok { parsed with shortInputArg2 := arg }
  else .error "ERROR : Too many arguments without mode-specification\n!"

/-- The loop over `argv`. -/
def parse : List String → Parsed → Except String Parsed
  | [], parsed => return parsed
  | arg :: rest, parsed =>
    match optionSlot arg with
    | some slot =>
      match rest with
      | value :: rest => parse rest (parsed.set slot value)
      | [] => .error ("ERROR : no argument for mode ''" ++ arg ++ "''\n")
    | none =>
      match flagField arg with
      | some (slot, value) => parse rest (parsed.set slot value)
      | none => do parse rest (← takeWord parsed arg)

/-- `check_short_input`. Without an input from `-i` the words are assigned. -/
def checkShortInput (argc : Nat) (modes : Vector String 8) (arg1Inp arg2Inf : String) :
    Except String Modes :=
  if modes[3] = "" then
    if 2 ≤ argc ∧ argc < modes.size then
      if arg1Inp = "" then
        .error "no input how to page\n"
      else
        .ok { shortInput := true, modes := (modes.set 3 arg1Inp).set 2 arg2Inf }
    else
      .error "how to page\n"
  else
    .ok { shortInput := false, modes := modes }

/-- The constructor. `args` is `argv` without the name of the program. -/
def make (args : List String) : Except String Modes := do
  let parsed ← parse args { modes := initial, shortInputArg1 := "", shortInputArg2 := "" }
  checkShortInput (args.length + 1) parsed.modes parsed.shortInputArg1 parsed.shortInputArg2

def slotOfKey (key : String) : Option (Fin 8) :=
  if key = "OutFile" then some 0
  else if key = "InFile" then some 3
  else if key = "Infix" then some 2
  else if key = "Algorithm" then some 1
  else if key = "SubstringWidth" then some 4
  else if key = "TryCompression" then some 5
  else if key = "useLCP" then some 6
  else if key = "FilterNewline" then some 7
  else none

/-- `operator[]`. -/
def get (modes : Modes) (key : String) : Except String String :=
  match slotOfKey key with
  | some slot => .ok modes.modes[slot]
  | none => .error "ERROR : Key to Modes unknown.\n"

/-- `parse_flag` on a string. -/
def parseFlag (flagStr : String) : Bool := flagStr != ""

/-- What is under a key, or nothing if the key is unknown. -/
def value (modes : Modes) (key : String) : String := (modes.get key).toOption.getD ""

def flag (modes : Modes) (key : String) : Bool := parseFlag (modes.value key)

theorem get_value (modes : Modes) {key : String} (known : (slotOfKey key).isSome = true) :
    modes.get key = .ok (modes.value key) := by
  obtain ⟨slot, hslot⟩ := Option.isSome_iff_exists.mp known
  rw [value, get, hslot]
  rfl

section Grammar

/-- The options that take a value. -/
inductive Opt where
  | output
  | input
  | find
  | substringWidth
  deriving DecidableEq, Repr

/-- The options that do not. -/
inductive Flag where
  | naive
  | naiveParallel
  | inducedSorting
  | tryCompression
  | useLCP
  | filterNewline
  deriving DecidableEq, Repr

def Opt.name : Opt → String
  | output => Modes.output
  | input => Modes.input
  | find => Modes.find
  | substringWidth => Modes.substringWidth

/-- The key under which the value is asked for. -/
def Opt.key : Opt → String
  | output => "OutFile"
  | input => "InFile"
  | find => "Infix"
  | substringWidth => "SubstringWidth"

def Opt.slot : Opt → Fin 8
  | output => 0
  | input => 3
  | find => 2
  | substringWidth => 4

def Flag.name : Flag → String
  | naive => Modes.naive
  | naiveParallel => Modes.naiveParallel
  | inducedSorting => Modes.inducedSorting
  | tryCompression => Modes.tryCompression
  | useLCP => Modes.useLCP
  | filterNewline => Modes.filterNewline

/-- What the flag sets: the algorithms their field to their name, all others their own. -/
def Flag.field : Flag → Fin 8 × String
  | naive => (1, Modes.naive)
  | naiveParallel => (1, Modes.naiveParallel)
  | inducedSorting => (1, Modes.inducedSorting)
  | tryCompression => (5, " ")
  | useLCP => (6, " ")
  | filterNewline => (7, " ")

/-- The names of all options. -/
def optionNames : List String :=
  [input, output, find, naive, naiveParallel, inducedSorting, tryCompression, useLCP,
    substringWidth, filterNewline]

/-- One group of a command line. -/
inductive Item where
  | option (opt : Opt) (value : String)
  | flag (flag : Flag)
  | word (arg : { arg : String // arg ∉ optionNames })

def Item.words : Item → List String
  | option opt value => [opt.name, value]
  | flag f => [f.name]
  | word arg => [arg.1]

/-- The field that an item sets. -/
def Item.field : Item → Option (Fin 8 × String)
  | option opt value => some (opt.slot, value)
  | flag f => some f.field
  | word _ => none

def Item.word? : Item → Option String
  | word arg => some arg.1
  | _ => none

/-- What an item gives to one field. -/
def Item.value (slot : Fin 8) (item : Item) : Option String :=
  item.field.bind fun field => if field.1 = slot then some field.2 else none

/-- The value that the last item with one for the field gives it. -/
def given (slot : Fin 8) (items : List Item) : Option String :=
  (items.filterMap (Item.value slot)).getLast?

/-- The words that are not empty. -/
def positionals (items : List Item) : List String :=
  (items.filterMap Item.word?).filter (· ≠ "")

end Grammar

theorem optionSlot_name (opt : Opt) : optionSlot opt.name = some opt.slot := by
  cases opt <;> decide

theorem optionSlot_flag (f : Flag) : optionSlot f.name = none := by cases f <;> decide

theorem flagField_name (f : Flag) : flagField f.name = some f.field := by cases f <;> decide

theorem exists_opt {arg : String} {slot : Fin 8} (h : optionSlot arg = some slot) :
    ∃ opt : Opt, opt.name = arg ∧ opt.slot = slot := by
  simp only [optionSlot] at h
  split at h
  · next same => exact ⟨.output, same.symm, Option.some.inj h⟩
  split at h
  · next same => exact ⟨.input, same.symm, Option.some.inj h⟩
  split at h
  · next same => exact ⟨.find, same.symm, Option.some.inj h⟩
  split at h
  · next same => exact ⟨.substringWidth, same.symm, Option.some.inj h⟩
  · cases h

theorem exists_flag {arg : String} {field : Fin 8 × String} (h : flagField arg = some field) :
    ∃ f : Flag, f.name = arg ∧ f.field = field := by
  simp only [flagField] at h
  split at h
  · next same =>
      obtain rfl := Option.some.inj h
      obtain rfl | rfl | rfl := same
      · exact ⟨.naive, rfl, rfl⟩
      · exact ⟨.naiveParallel, rfl, rfl⟩
      · exact ⟨.inducedSorting, rfl, rfl⟩
  split at h
  · next same => exact ⟨.tryCompression, same.symm, Option.some.inj h⟩
  split at h
  · next same => exact ⟨.useLCP, same.symm, Option.some.inj h⟩
  split at h
  · next same => exact ⟨.filterNewline, same.symm, Option.some.inj h⟩
  · cases h

/-- What is neither kind of option is a word. -/
theorem not_mem_optionNames {arg : String} :
    arg ∉ optionNames ↔ optionSlot arg = none ∧ flagField arg = none := by
  constructor
  · intro h
    simp only [optionNames, List.mem_cons, List.not_mem_nil, not_or] at h
    simp only [optionSlot, flagField, h, if_false, or_self, and_self]
  · rintro ⟨hslot, hfield⟩ hmem
    simp only [optionNames, List.mem_cons, List.not_mem_nil, or_false] at hmem
    obtain rfl | rfl | rfl | rfl | rfl | rfl | rfl | rfl | rfl | rfl := hmem <;>
      revert hslot hfield <;> decide

section Loop

/-- What an iteration of the loop makes of an item. -/
def Item.take (parsed : Parsed) : Item → Except String Parsed
  | option opt value => .ok (parsed.set opt.slot value)
  | flag f => .ok (parsed.set f.field.1 f.field.2)
  | word arg => takeWord parsed arg.1

theorem parse_item (item : Item) (rest : List String) (parsed : Parsed) :
    parse (item.words ++ rest) parsed = item.take parsed >>= parse rest := by
  cases item with
  | option opt value =>
      rw [Item.words, List.cons_append, List.singleton_append, parse, optionSlot_name]
      rfl
  | flag f =>
      rw [Item.words, List.singleton_append, parse, optionSlot_flag, flagField_name]
      rfl
  | word arg =>
      obtain ⟨hslot, hfield⟩ := not_mem_optionNames.mp arg.2
      rw [Item.words, List.singleton_append, parse, hslot, hfield]
      rfl

/-- The loop goes item by item. -/
theorem parse_items (items : List Item) (parsed : Parsed) :
    parse (items.flatMap Item.words) parsed = items.foldlM Item.take parsed := by
  induction items generalizing parsed with
  | nil => rfl
  | cons item items ih =>
      rw [List.flatMap_cons, parse_item, List.foldlM_cons]
      exact congrArg (item.take parsed >>= ·) (funext ih)

/-- What the loop gets through is a list of items. -/
theorem exists_items {args : List String} {parsed parsed' : Parsed}
    (h : parse args parsed = .ok parsed') :
    ∃ items : List Item, args = items.flatMap Item.words := by
  fun_induction parse args parsed with
  | case1 parsed => exact ⟨[], rfl⟩
  | case2 arg parsed slot hslot value rest ih =>
      obtain ⟨opt, rfl, _⟩ := exists_opt hslot
      obtain ⟨items, rfl⟩ := ih h
      exact ⟨.option opt value :: items, rfl⟩
  | case3 arg parsed slot hslot => cases h
  | case4 arg rest parsed hslot slot value hfield ih =>
      obtain ⟨f, rfl, _⟩ := exists_flag hfield
      obtain ⟨items, rfl⟩ := ih h
      exact ⟨.flag f :: items, rfl⟩
  | case5 arg rest parsed hslot hfield ih =>
      cases hword : takeWord parsed arg with
      | error message =>
          rw [hword] at h
          cases h
      | ok next =>
          rw [hword] at h
          obtain ⟨items, rfl⟩ := ih next h
          exact ⟨.word ⟨arg, not_mem_optionNames.mpr ⟨hslot, hfield⟩⟩ :: items, rfl⟩

/-- The fields after an item. -/
def Item.setField (modes : Vector String 8) (item : Item) : Vector String 8 :=
  match item.field with
  | some (slot, value) => modes.set slot value
  | none => modes

theorem takeWord_modes (parsed : Parsed) (arg : String) (modes : Vector String 8) :
    takeWord { parsed with modes := modes } arg =
      (takeWord parsed arg).map (fun next => { next with modes := modes }) := by
  simp only [takeWord]
  split
  · rfl
  split <;> rfl

theorem modes_of_takeWord {parsed next : Parsed} {arg : String}
    (h : takeWord parsed arg = .ok next) : next.modes = parsed.modes := by
  simp only [takeWord] at h
  split at h
  · exact Except.ok.inj h ▸ rfl
  split at h
  · exact Except.ok.inj h ▸ rfl
  · cases h

/-- Options and words do not get in each other's way. -/
theorem foldlM_take (items : List Item) (parsed : Parsed) :
    items.foldlM Item.take parsed = (items.filterMap Item.word?).foldlM takeWord
      { parsed with modes := items.foldl Item.setField parsed.modes } := by
  induction items generalizing parsed with
  | nil => rfl
  | cons item items ih =>
      cases item with
      | option opt value => exact ih _
      | flag f => exact ih _
      | word arg =>
          have words : (Item.word arg :: items).filterMap Item.word? =
              arg.1 :: items.filterMap Item.word? := rfl
          rw [words, List.foldlM_cons, List.foldlM_cons, takeWord_modes, Item.take]
          cases hword : takeWord parsed arg.1 with
          | error message => rfl
          | ok next =>
              have same := modes_of_takeWord hword
              change items.foldlM Item.take next = _
              rw [ih next, same]
              rfl

theorem getElem_set (modes : Vector String 8) (k slot : Fin 8) (value : String) :
    (modes.set k value)[slot] = if k = slot then value else modes[slot] := by
  rw [Fin.getElem_fin, Vector.getElem_set]
  simp only [Fin.ext_iff, Fin.getElem_fin]

theorem getElem_setField (modes : Vector String 8) (item : Item) (slot : Fin 8) :
    (item.setField modes)[slot] = (item.value slot).getD modes[slot] := by
  cases item with
  | option opt value =>
      refine (getElem_set modes opt.slot slot value).trans ?_
      by_cases same : opt.slot = slot <;> simp [Item.value, Item.field, same]
  | flag f =>
      refine (getElem_set modes f.field.1 slot f.field.2).trans ?_
      by_cases same : f.field.1 = slot <;> simp [Item.value, Item.field, same]
  | word arg => rfl

theorem given_cons (slot : Fin 8) (item : Item) (items : List Item) :
    given slot (item :: items) = (given slot items).or (item.value slot) := by
  rw [given, List.filterMap_cons]
  cases item.value slot with
  | none => rw [given, Option.or_none]
  | some value =>
      rw [List.getLast?_cons, given]
      cases (items.filterMap (Item.value slot)).getLast? <;> rfl

/-- A field has the value given last, or the one it had. -/
theorem foldl_setField (items : List Item) (modes : Vector String 8) (slot : Fin 8) :
    (items.foldl Item.setField modes)[slot] = (given slot items).getD modes[slot] := by
  induction items generalizing modes with
  | nil => rfl
  | cons item items ih =>
      rw [List.foldl_cons, ih, getElem_setField, given_cons]
      cases given slot items <;> rfl

end Loop

section Words

/-- The words taken so far that are not empty. -/
def Parsed.taken (parsed : Parsed) : List String :=
  [parsed.shortInputArg1, parsed.shortInputArg2].filter (· ≠ "")

/-- The first place is filled before the second. -/
def Parsed.Filled (parsed : Parsed) : Prop :=
  parsed.shortInputArg1 = "" → parsed.shortInputArg2 = ""

theorem taken_of_takeWord {parsed next : Parsed} {arg : String} (filled : parsed.Filled)
    (h : takeWord parsed arg = .ok next) :
    next.taken = parsed.taken ++ [arg].filter (· ≠ "") ∧ next.Filled := by
  simp only [takeWord] at h
  split at h
  · next first =>
      obtain rfl := Except.ok.inj h
      by_cases empty : arg = "" <;>
        simp [Parsed.taken, Parsed.Filled, first, filled first, empty]
  split at h
  · next first second =>
      obtain rfl := Except.ok.inj h
      simp [Parsed.taken, Parsed.Filled, first, second]
  · cases h

theorem foldlM_takeWord {words : List String} {parsed parsed' : Parsed} (filled : parsed.Filled)
    (h : words.foldlM takeWord parsed = .ok parsed') :
    parsed'.modes = parsed.modes ∧ parsed'.taken = parsed.taken ++ words.filter (· ≠ "") ∧
      parsed'.Filled := by
  induction words generalizing parsed with
  | nil =>
      obtain rfl := Except.ok.inj h
      exact ⟨rfl, (List.append_nil _).symm, filled⟩
  | cons arg words ih =>
      rw [List.foldlM_cons] at h
      cases hword : takeWord parsed arg with
      | error message =>
          rw [hword] at h
          cases h
      | ok next =>
          rw [hword] at h
          obtain ⟨taken, filled'⟩ := taken_of_takeWord filled hword
          obtain ⟨hmodes, htaken, last⟩ := ih filled' h
          refine ⟨hmodes.trans (modes_of_takeWord hword), ?_, last⟩
          rw [htaken, taken, List.append_assoc, ← List.filter_append, List.singleton_append]

/-- The two places hold the first two words taken. -/
theorem Parsed.Filled.places {parsed : Parsed} (h : parsed.Filled) :
    parsed.shortInputArg1 = parsed.taken.getD 0 "" ∧
      parsed.shortInputArg2 = parsed.taken.getD 1 "" := by
  by_cases first : parsed.shortInputArg1 = ""
  · simp [taken, first, h first]
  · by_cases second : parsed.shortInputArg2 = "" <;> simp [taken, first, second]

end Words

/-- The value that a field has for the options alone. -/
def chosen (items : List Item) (slot : Fin 8) : String := (given slot items).getD initial[slot]

/-- The constructor, item by item. -/
theorem make_items (items : List Item) :
    make (items.flatMap Item.words) = (do
      let parsed ← (items.filterMap Item.word?).foldlM takeWord
        { modes := items.foldl Item.setField initial, shortInputArg1 := "", shortInputArg2 := "" }
      checkShortInput ((items.flatMap Item.words).length + 1) parsed.modes parsed.shortInputArg1
        parsed.shortInputArg2) := by
  rw [make, parse_items, foldlM_take]

/-- Everything that a constructor that returns can have done: with an input from `-i` the fields
are what the options say, and without one the words replace two of them. -/
theorem make_cases {items : List Item} {modes : Modes}
    (h : make (items.flatMap Item.words) = .ok modes) :
    (chosen items 3 ≠ "" ∧ modes.shortInput = false ∧
      ∀ slot : Fin 8, modes.modes[slot] = chosen items slot) ∨
    (chosen items 3 = "" ∧ modes.shortInput = true ∧ (items.flatMap Item.words).length + 1 < 8 ∧
      (positionals items).getD 0 "" ≠ "" ∧
      ∀ slot : Fin 8, modes.modes[slot] = if slot = 2 then (positionals items).getD 1 ""
        else if slot = 3 then (positionals items).getD 0 "" else chosen items slot) := by
  rw [make_items] at h
  cases hwords : (items.filterMap Item.word?).foldlM takeWord
      { modes := items.foldl Item.setField initial,
        shortInputArg1 := "", shortInputArg2 := "" } with
  | error message =>
      rw [hwords] at h
      cases h
  | ok parsed =>
      rw [hwords] at h
      obtain ⟨hmodes, taken, filled⟩ := foldlM_takeWord (fun _ => rfl) hwords
      obtain ⟨first, second⟩ := filled.places
      have fields : ∀ slot : Fin 8, parsed.modes[slot] = chosen items slot := fun slot => by
        rw [hmodes]
        exact foldl_setField items initial slot
      replace taken : parsed.taken = positionals items := taken
      rw [taken] at first second
      change checkShortInput _ parsed.modes parsed.shortInputArg1 parsed.shortInputArg2 = _ at h
      rw [checkShortInput, first, second] at h
      have input : parsed.modes[3] = chosen items 3 := fields 3
      rw [input] at h
      split at h
      · next hinput =>
          split at h
          · next hargc =>
              split at h
              · cases h
              · next hfirst =>
                  obtain rfl := Except.ok.inj h
                  refine Or.inr ⟨hinput, rfl, hargc.2, hfirst, fun slot => ?_⟩
                  refine (getElem_set _ 2 slot _).trans ?_
                  simp only [eq_comm (a := slot)]
                  congr 1
                  refine (getElem_set _ 3 slot _).trans ?_
                  rw [fields]
          · cases h
      · next hinput =>
          obtain rfl := Except.ok.inj h
          exact Or.inl ⟨hinput, rfl, fields⟩

section Reported

/-- What `operator[]` should report of a command line: every option that was given a value, and
words only where no option gave one. -/
structure Faithful (items : List Item) (modes : Modes) : Prop where
  options : ∀ (opt : Opt) (value : String), given opt.slot items = some value → value ≠ "" →
    modes.get opt.key = .ok value
  input : chosen items Opt.input.slot = "" →
    modes.get Opt.input.key = .ok ((positionals items).getD 0 "")
  pattern : chosen items Opt.find.slot = "" → modes.get Opt.find.key = .ok "" ∨
    modes.get Opt.find.key = .ok ((positionals items).getD 1 "")
  others : ∀ slot : Fin 8, slot ≠ Opt.input.slot → slot ≠ Opt.find.slot →
    modes.modes[slot] = chosen items slot

/-- A pattern given with `-f` is not replaced: it comes with a file given with `-i`, or it is
repeated as the second word. -/
def KeepsPattern (items : List Item) : Prop :=
  ∀ value, given Opt.find.slot items = some value → value ≠ "" →
    chosen items Opt.input.slot = "" → (positionals items).getD 1 "" = value

variable {items : List Item} {modes : Modes}

theorem get_key (opt : Opt) (modes : Modes) : modes.get opt.key = .ok modes.modes[opt.slot] := by
  cases opt <;> rfl

theorem chosen_of_given {slot : Fin 8} {value : String} (h : given slot items = some value) :
    chosen items slot = value := by
  rw [chosen, h, Option.getD_some]

/-- The fields are what the command line says just when the pattern is kept. -/
theorem faithful_iff (h : make (items.flatMap Item.words) = .ok modes) :
    Faithful items modes ↔ KeepsPattern items := by
  constructor
  · rintro faithful value hgiven hne hinput
    have reported := faithful.options .find value hgiven hne
    rw [get_key] at reported
    obtain ⟨hother, _⟩ | ⟨_, _, _, _, fields⟩ := make_cases h
    · exact absurd hinput hother
    · exact (fields 2).symm.trans (Except.ok.inj reported)
  · intro keeps
    obtain ⟨hinput, _, fields⟩ | ⟨hinput, _, _, _, fields⟩ := make_cases h
    · constructor
      · intro opt value hgiven _
        rw [get_key, fields, chosen_of_given hgiven]
      · exact fun hempty => absurd hempty hinput
      · intro hempty
        rw [get_key, fields]
        exact Or.inl (congrArg Except.ok hempty)
      · exact fun slot _ _ => fields slot
    · constructor
      · intro opt value hgiven hne
        rw [get_key, fields]
        cases opt with
        | find => exact congrArg Except.ok (keeps value hgiven hne hinput)
        | input => exact absurd ((chosen_of_given hgiven).symm.trans hinput) hne
        | output => exact congrArg Except.ok (chosen_of_given hgiven)
        | substringWidth => exact congrArg Except.ok (chosen_of_given hgiven)
      · intro _
        rw [get_key, fields]
        rfl
      · intro _
        rw [get_key, fields]
        exact Or.inr rfl
      · intro slot hother hother'
        exact (fields slot).trans ((if_neg hother').trans (if_neg hother))

end Reported

section Documented

/-- `FILE`, later perhaps `PATTERN`, and around them whatever needs neither `-i` nor `-f`. -/
structure Documented (file : String) (pattern : Option String) (items : List Item) : Prop where
  words : items.filterMap Item.word? = file :: pattern.toList
  file_ne : file ≠ ""
  pattern_ne : ∀ p ∈ pattern, p ≠ ""
  noInput : ∀ value, Item.option .input value ∉ items
  noFind : ∀ value, Item.option .find value ∉ items

/-- The constructor returns and keeps everything it was given, of several values for one field
the last. -/
def Accepts (file : String) (pattern : Option String) (items : List Item) : Prop :=
  ∃ modes, make (items.flatMap Item.words) = .ok modes ∧ modes.shortInput = true ∧
    modes.get "InFile" = .ok file ∧ modes.get "Infix" = .ok (pattern.getD "") ∧
    ∀ slot : Fin 8, slot ≠ 2 → slot ≠ 3 → modes.modes[slot] = chosen items slot

variable {file : String} {pattern : Option String} {items : List Item}

namespace Documented

theorem positionals_eq (h : Documented file pattern items) :
    positionals items = file :: pattern.toList := by
  rw [positionals, h.words]
  apply List.filter_eq_self.mpr
  intro word hword
  obtain rfl | hmem := List.mem_cons.mp hword
  · exact decide_eq_true h.file_ne
  · exact decide_eq_true (h.pattern_ne word (Option.mem_toList.mp hmem))

theorem noInput_given (h : Documented file pattern items) : chosen items 3 = "" := by
  have none : items.filterMap (Item.value 3) = [] := by
    apply List.filterMap_eq_nil_iff.mpr
    intro item hitem
    cases item with
    | option opt value =>
        cases opt with
        | input => exact absurd hitem (h.noInput value)
        | output => rfl
        | find => rfl
        | substringWidth => rfl
    | flag f => cases f <;> rfl
    | word arg => rfl
  rw [chosen, given, none]
  rfl

/-- The loop takes the words one by one. -/
theorem foldlM_words (h : Documented file pattern items) (modes : Vector String 8) :
    (items.filterMap Item.word?).foldlM takeWord
      { modes := modes, shortInputArg1 := "", shortInputArg2 := "" } =
    .ok { modes := modes, shortInputArg1 := file, shortInputArg2 := pattern.getD "" } := by
  have hfile := h.file_ne
  rw [h.words]
  cases pattern with
  | none => rfl
  | some p =>
      have second : takeWord { modes := modes, shortInputArg1 := file, shortInputArg2 := "" } p =
          .ok { modes := modes, shortInputArg1 := file, shortInputArg2 := p } := by
        rw [takeWord, if_neg hfile, if_pos rfl]
      change [p].foldlM takeWord _ = _
      rw [List.foldlM_cons, second]
      rfl

theorem two_le (h : Documented file pattern items) :
    2 ≤ (items.flatMap Item.words).length + 1 := by
  cases items with
  | nil => exact nomatch h.words
  | cons item items =>
      have : 1 ≤ item.words.length := by cases item <;> simp [Item.words]
      rw [List.flatMap_cons, List.length_append]
      omega

end Documented

/-- A documented command line is accepted just when it has at most six arguments. The bound comes
from the number of fields. -/
theorem accepts_iff (h : Documented file pattern items) :
    Accepts file pattern items ↔ (items.flatMap Item.words).length + 1 < 8 := by
  constructor
  · rintro ⟨modes, run, _⟩
    obtain ⟨hinput, _⟩ | ⟨_, _, short, _⟩ := make_cases run
    · exact absurd h.noInput_given hinput
    · exact short
  · intro short
    have hfile := h.file_ne
    obtain ⟨modes, run⟩ : ∃ modes, make (items.flatMap Item.words) = .ok modes := by
      have empty : (items.foldl Item.setField initial)[3] = "" :=
        (foldl_setField items initial 3).trans h.noInput_given
      refine ⟨{ shortInput := true, modes :=
        ((items.foldl Item.setField initial).set 3 file).set 2 (pattern.getD "") }, ?_⟩
      rw [make_items, h.foldlM_words]
      change checkShortInput _ _ _ _ = _
      rw [checkShortInput, if_pos empty, if_pos ⟨h.two_le, short⟩, if_neg hfile]
    obtain ⟨hinput, _⟩ | ⟨_, hshort, _, _, fields⟩ := make_cases run
    · exact absurd h.noInput_given hinput
    · rw [h.positionals_eq] at fields
      refine ⟨modes, run, hshort, congrArg Except.ok (fields 3), ?_, fun slot hne hne' => ?_⟩
      · refine congrArg Except.ok ((fields 2).trans ?_)
        cases pattern <;> rfl
      · rw [fields, if_neg hne, if_neg hne']

/-- `FILE PATTERN -sw 10`. -/
theorem accepts_iff_short : Accepts "balack_small.txt" (some "was")
    [.word ⟨"balack_small.txt", by decide⟩, .word ⟨"was", by decide⟩,
      .option .substringWidth "10"] := by
  refine (accepts_iff ⟨rfl, by decide, ?_, ?_, ?_⟩).mpr (by decide)
  · simp
  · simp
  · simp

/-- `FILE -o x -sw 10 -n -tc` is one argument too long. -/
theorem documented_rejected :
    make ["balack_small.txt", "-o", "x", "-sw", "10", "-n", "-tc"] = .error "how to page\n" ∧
    ¬ ∀ (file : String) (pattern : Option String) (items : List Item),
      Documented file pattern items → Accepts file pattern items := by
  have rejected : make ["balack_small.txt", "-o", "x", "-sw", "10", "-n", "-tc"] =
      .error "how to page\n" := by decide
  refine ⟨rejected, fun claim => ?_⟩
  have documented : Documented "balack_small.txt" none
      [.word ⟨"balack_small.txt", by decide⟩, .option .output "x", .option .substringWidth "10",
        .flag .naive, .flag .tryCompression] := by
    refine ⟨rfl, by decide, ?_, ?_, ?_⟩ <;> simp
  obtain ⟨modes, run, _⟩ := claim _ _ _ documented
  exact nomatch rejected.symm.trans run

end Documented

end Modes

end SuffixArray
