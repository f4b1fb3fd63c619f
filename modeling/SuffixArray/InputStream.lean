import SuffixArray.LittleEndian
import Mathlib.Data.List.TakeWhile

/-!
# Reading a byte stream

An input stream with its two failure flags. Unformatted reads fill a buffer that
has contents already: what they do not reach stays as it was. Formatted extraction
of a word skips white space, stops at white space or at the field width, and leaves
its target alone when it finds nothing.

A reader is a state transformer on streams. `Reads m bytes a` says that `m` takes
exactly `bytes` from the front of any sound stream and delivers `a`; the rules for
`pure`, `>>=` and loops put the readers of a format together the way its writers
append their bytes.
-/

/-- `eof` and `failed` are `eofbit` and `failbit`. -/
structure InputStream where
  rest : List UInt8
  eof : Bool
  failed : Bool
  deriving DecidableEq, Repr

abbrev Reading (α : Type) : Type := StateM InputStream α

namespace InputStream

variable {α β σ ι : Type}

/-- A stream opened on `bytes`, or read up to them without a failure. -/
def ofBytes (bytes : List UInt8) : InputStream := { rest := bytes, eof := false, failed := false }

def good (strm : InputStream) : Bool := !strm.eof && !strm.failed

/-- `strm.read(buf, n)` for a buffer of `n` bytes. -/
def read (buf : List UInt8) : Reading (List UInt8) := fun strm =>
  if strm.good then
    if buf.length ≤ strm.rest.length then
      (strm.rest.take buf.length, ofBytes (strm.rest.drop buf.length))
    else
      (strm.rest ++ buf.drop strm.rest.length, { rest := [], eof := true, failed := true })
  else
    (buf, { strm with failed := true })

/-- `read` into a word of `width` bytes. -/
def readWord (width word : Nat) : Reading Nat := do
  let buf ← read (LittleEndian.encode width word)
  return LittleEndian.decode buf

/-- `read` into a vector of words. -/
def readWords (width : Nat) (words : List Nat) : Reading (List Nat) := do
  let buf ← read (LittleEndian.encodeAll width words)
  return LittleEndian.decodeAll width words.length buf

/-- `isspace` in the C locale. -/
def isSpace (c : UInt8) : Bool := c == 32 || (9 ≤ c && c ≤ 13)

/-- The characters that an extraction of at most `width` characters takes from the
front of `text`; a width of zero sets no limit. -/
def field (width : Nat) (text : List UInt8) : List UInt8 :=
  (if width = 0 then text else text.take width).takeWhile (!isSpace ·)

/-- `strm >> setw(width) >> str`. -/
def extract (width : Nat) (str : List UInt8) : Reading (List UInt8) := fun strm =>
  if strm.good then
    match strm.rest.dropWhile isSpace with
    | [] => (str, { rest := [], eof := true, failed := true })
    | c :: text =>
      let taken := field width (c :: text)
      let rest := (c :: text).drop taken.length
      (taken, { rest := rest, eof := rest.isEmpty && taken.length != width, failed := false })
  else
    (str, { strm with failed := true })

theorem not_isSpace_of_dropWhile {text rest : List UInt8} {c : UInt8}
    (h : text.dropWhile isSpace = c :: rest) : isSpace c = false := by
  have head := List.head?_dropWhile_not isSpace text
  rwa [h] at head

theorem field_cons (width : Nat) {c : UInt8} {text : List UInt8} (h : isSpace c = false) :
    ∃ others, field width (c :: text) = c :: others := by
  have visible : (!isSpace c) = true := by rw [h]; rfl
  cases width with
  | zero => exact ⟨_, List.takeWhile_cons_of_pos visible⟩
  | succ width => exact ⟨_, List.takeWhile_cons_of_pos visible⟩

/-- A successful extraction makes progress. -/
theorem extract_shorter {width : Nat} {str : List UInt8} {strm : InputStream}
    (h : (extract width str strm).2.failed = false) :
    (extract width str strm).2.rest.length < strm.rest.length := by
  have shrinks : (strm.rest.dropWhile isSpace).length ≤ strm.rest.length :=
    List.length_dropWhile_le ..
  revert h
  rw [extract]
  cases strm.good with
  | false => exact fun h => nomatch h
  | true =>
      cases htext : strm.rest.dropWhile isSpace with
      | nil => exact fun h => nomatch h
      | cons c text =>
          intro _
          obtain ⟨others, hfield⟩ := field_cons width (not_isSpace_of_dropWhile htext)
          rw [htext] at shrinks
          have first : 0 < (field width (c :: text)).length := by
            rw [hfield]
            exact Nat.succ_pos _
          simp only [if_true, List.length_drop, List.length_cons] at shrinks ⊢
          omega

/-- `while(strm >> setw(width) >> str) body`: the target is local to the loop and
`body` sees what has been extracted. -/
def whileExtract (width : Nat) (body : σ → List UInt8 → σ) (acc : σ) (str : List UInt8) :
    Reading σ := fun strm =>
  if (extract width str strm).2.failed then
    (acc, (extract width str strm).2)
  else
    whileExtract width body (body acc (extract width str strm).1) (extract width str strm).1
      (extract width str strm).2
  termination_by strm => strm.rest.length
  decreasing_by exact extract_shorter (Bool.eq_false_iff.mpr (by assumption))

theorem whileExtract_of_extracted {width : Nat} {body : σ → List UInt8 → σ} {acc : σ}
    {str : List UInt8} {strm : InputStream} (h : (extract width str strm).2.failed = false) :
    whileExtract width body acc str strm =
      whileExtract width body (body acc (extract width str strm).1) (extract width str strm).1
        (extract width str strm).2 := by
  rw [whileExtract, if_neg (Bool.eq_false_iff.mp h)]

/-- What every iteration keeps, the loop keeps, whatever is in the stream. -/
theorem whileExtract_inv (inv : σ → Prop) {width : Nat} {body : σ → List UInt8 → σ}
    (step : ∀ acc str, inv acc → inv (body acc str)) (acc : σ) (str : List UInt8)
    (strm : InputStream) (init : inv acc) : inv (whileExtract width body acc str strm).1 := by
  fun_induction whileExtract width body acc str strm with
  | case1 acc str strm failed => exact init
  | case2 acc str strm extracted ih => exact ih (step _ _ init)

/-- Anything but white space is extracted, up to the end of the stream. -/
theorem extract_visible (width : Nat) (str : List UInt8) {c : UInt8} (text : List UInt8)
    (h : isSpace c = false) : (extract width str (ofBytes (c :: text))).2.failed = false := by
  have first : (c :: text).dropWhile isSpace = c :: text :=
    List.dropWhile_cons_of_neg (Bool.eq_false_iff.mp h)
  simp only [extract, ofBytes, good, first, Bool.not_false, Bool.and_self, if_true]

/-- `m` takes exactly `bytes` from the front of a sound stream and delivers `a`. -/
def Reads (m : Reading α) (bytes : List UInt8) (a : α) : Prop :=
  ∀ tail, m (ofBytes (bytes ++ tail)) = (a, ofBytes tail)

theorem Reads.pure (a : α) : Reads (pure a) [] a := fun _ => rfl

/-- What follows a reader goes on behind its bytes. -/
theorem Reads.run {m : Reading α} {bytes : List UInt8} {a : α} (hm : Reads m bytes a)
    (f : α → Reading β) (tail : List UInt8) :
    (m >>= f) (ofBytes (bytes ++ tail)) = f a (ofBytes tail) := by
  change f (m _).1 (m _).2 = _
  rw [hm]

theorem Reads.bind {m : Reading α} {f : α → Reading β} {first second : List UInt8} {a : α} {b : β}
    (hm : Reads m first a) (hf : Reads (f a) second b) : Reads (m >>= f) (first ++ second) b := by
  intro tail
  rw [List.append_assoc, hm.run f, hf]

/-- A reader that ends in a computation. -/
theorem Reads.map {m : Reading α} {bytes : List UInt8} {a : α} (hm : Reads m bytes a)
    (f : α → β) : Reads (m >>= fun x => Pure.pure (f x)) bytes (f a) := by
  rw [← List.append_nil bytes]
  exact hm.bind (Reads.pure (f a))

/-- One round of the loop for each item: whatever the rounds are numbered by, each
takes the bytes of its item. -/
theorem Reads.foldlM {body : σ → ι → Reading σ} {bytes : α → List UInt8} {push : σ → α → σ}
    {items : List α} (step : ∀ item ∈ items, ∀ s i, Reads (body s i) (bytes item) (push s item)) :
    ∀ (rounds : List ι) (s : σ), rounds.length = items.length →
      Reads (rounds.foldlM body s) (items.flatMap bytes) (items.foldl push s) := by
  induction items with
  | nil =>
      intro rounds s hlen
      obtain rfl := List.length_eq_zero_iff.mp hlen
      exact Reads.pure s
  | cons item items ih =>
      intro rounds s hlen
      obtain ⟨first, others⟩ := List.forall_mem_cons.mp step
      cases rounds with
      | nil => exact nomatch hlen
      | cons i rounds =>
          rw [List.foldlM_cons, List.flatMap_cons, List.foldl_cons]
          exact (first s i).bind (ih others rounds _ (Nat.succ.inj hlen))

theorem Reads.read {buf bytes : List UInt8} (h : bytes.length = buf.length) :
    Reads (read buf) bytes bytes := by
  intro tail
  have fits : buf.length ≤ (bytes ++ tail).length := by
    rw [List.length_append, h]
    exact Nat.le_add_right _ _
  change (if buf.length ≤ (bytes ++ tail).length then _ else _) = _
  rw [if_pos fits]
  simp only [ofBytes, List.take_left' h, List.drop_left' h]

theorem Reads.readWord {width word : Nat} (old : Nat) (h : word < 256 ^ width) :
    Reads (readWord width old) (LittleEndian.encode width word) word := by
  have lengths : (LittleEndian.encode width word).length =
      (LittleEndian.encode width old).length := by
    rw [LittleEndian.length_encode, LittleEndian.length_encode]
  have := (Reads.read lengths).map LittleEndian.decode
  rwa [LittleEndian.decode_encode h] at this

theorem Reads.readWords {width : Nat} {old words : List Nat} (count : words.length = old.length)
    (h : ∀ word ∈ words, word < 256 ^ width) :
    Reads (readWords width old) (LittleEndian.encodeAll width words) words := by
  have lengths : (LittleEndian.encodeAll width words).length =
      (LittleEndian.encodeAll width old).length := by
    rw [LittleEndian.length_encodeAll, LittleEndian.length_encodeAll, count]
  have := (Reads.read lengths).map (LittleEndian.decodeAll width old.length)
  rwa [← count, LittleEndian.decodeAll_encodeAll h, count] at this

/-- A word without white space that fills the field. -/
theorem Reads.extract {width : Nat} {token : List UInt8} (str : List UInt8) (hpos : 0 < width)
    (hlen : token.length = width) (visible : ∀ c ∈ token, isSpace c = false) :
    Reads (extract width str) token token := by
  intro tail
  cases token with
  | nil => exact absurd hlen (Nat.ne_of_lt hpos)
  | cons c token =>
      have hc : ¬ isSpace c = true := by
        rw [visible c List.mem_cons_self]
        exact Bool.false_ne_true
      have taken : field width (c :: (token ++ tail)) = c :: token := by
        rw [field, if_neg (Nat.ne_of_gt hpos), ← List.cons_append, List.take_left' hlen]
        apply List.takeWhile_eq_self_iff.mpr
        intro d hd
        rw [visible d hd]
        rfl
      have first : (c :: (token ++ tail)).dropWhile isSpace = c :: (token ++ tail) :=
        List.dropWhile_cons_of_neg hc
      have run : InputStream.extract width str (ofBytes (c :: token ++ tail)) =
          (c :: token, { rest := tail, eof := tail.isEmpty && (c :: token).length != width,
                         failed := false }) := by
        simp only [InputStream.extract, ofBytes, good, List.cons_append, first, taken,
          Bool.not_false, Bool.and_self, if_true, List.length_cons, List.drop_succ_cons,
          List.drop_left]
      rw [run, hlen, bne_self_eq_false, Bool.and_false]
      rfl

/-- The loop goes through words that fill their fields one by one. -/
theorem whileExtract_tokens {width : Nat} (hpos : 0 < width) (body : σ → List UInt8 → σ)
    {tokens : List (List UInt8)}
    (h : ∀ token ∈ tokens, token.length = width ∧ ∀ c ∈ token, isSpace c = false)
    (acc : σ) (str tail : List UInt8) :
    ∃ last, whileExtract width body acc str (ofBytes (tokens.flatten ++ tail)) =
      whileExtract width body (tokens.foldl body acc) last (ofBytes tail) := by
  induction tokens generalizing acc str with
  | nil => exact ⟨str, rfl⟩
  | cons token tokens ih =>
      obtain ⟨⟨hlen, visible⟩, others⟩ := List.forall_mem_cons.mp h
      obtain ⟨last, rest⟩ := ih others (body acc token) token
      have first := Reads.extract str hpos hlen visible (tokens.flatten ++ tail)
      have extracted : (InputStream.extract width str
          (ofBytes (token ++ (tokens.flatten ++ tail)))).2.failed = false := by
        rw [first]
        rfl
      refine ⟨last, ?_⟩
      rw [List.flatten_cons, List.append_assoc, whileExtract_of_extracted extracted, first,
        List.foldl_cons, rest]

/-- A failure that has happened before `m` is still there after it. -/
def Keeps (m : Reading α) : Prop :=
  ∀ strm : InputStream, strm.failed = true → (m strm).2.failed = true

namespace Keeps

theorem pure (a : α) : Keeps (pure a) := fun _ failed => failed

theorem bind {m : Reading α} {f : α → Reading β} (hm : Keeps m) (hf : ∀ a, Keeps (f a)) :
    Keeps (m >>= f) := by
  intro strm failed
  change (f (m strm).1 (m strm).2).2.failed = true
  exact hf _ _ (hm strm failed)

theorem map {m : Reading α} (hm : Keeps m) (f : α → β) : Keeps (m >>= fun x => Pure.pure (f x)) :=
  hm.bind fun x => pure (f x)

theorem foldlM {body : σ → ι → Reading σ} (step : ∀ s i, Keeps (body s i)) :
    ∀ (rounds : List ι) (s : σ), Keeps (rounds.foldlM body s) := by
  intro rounds
  induction rounds with
  | nil => exact fun s => pure s
  | cons i rounds ih =>
      intro s
      rw [List.foldlM_cons]
      exact (step s i).bind ih

theorem read (buf : List UInt8) : Keeps (read buf) := by
  intro strm failed
  have broken : strm.good = false := by rw [good, failed, Bool.not_true, Bool.and_false]
  rw [InputStream.read, broken]
  rfl

theorem readWord (width word : Nat) : Keeps (readWord width word) :=
  (read _).map LittleEndian.decode

theorem readWords (width : Nat) (words : List Nat) : Keeps (readWords width words) :=
  (read _).map (LittleEndian.decodeAll width words.length)

theorem extract (width : Nat) (str : List UInt8) : Keeps (extract width str) := by
  intro strm failed
  have broken : strm.good = false := by rw [good, failed, Bool.not_true, Bool.and_false]
  rw [InputStream.extract, broken]
  rfl

end Keeps

/-- The extraction loop ends with a failure only. -/
theorem whileExtract_failed (width : Nat) (body : σ → List UInt8 → σ) (acc : σ) (str : List UInt8)
    (strm : InputStream) : (whileExtract width body acc str strm).2.failed = true := by
  fun_induction whileExtract width body acc str strm with
  | case1 acc str strm failed => exact failed
  | case2 acc str strm extracted ih => exact ih

/-- On every proper beginning of `bytes` the stream fails. -/
def FailsShort (m : Reading α) (bytes : List UInt8) : Prop :=
  ∀ short, short <+: bytes → short ≠ bytes → (m (ofBytes short)).2.failed = true

namespace FailsShort

theorem nil (m : Reading α) : FailsShort m [] :=
  fun _ shorter proper => absurd (List.prefix_nil.mp shorter) proper

theorem of_failed {m : Reading α} (h : ∀ strm, (m strm).2.failed = true) (bytes : List UInt8) :
    FailsShort m bytes := fun _ _ _ => h _

/-- A cut falls into the first part or behind it. -/
theorem bind {m : Reading α} {f : α → Reading β} {first second : List UInt8} {a : α}
    (hm : FailsShort m first) (reads : Reads m first a) (hf : FailsShort (f a) second)
    (keeps : ∀ x, Keeps (f x)) : FailsShort (m >>= f) (first ++ second) := by
  intro short shorter proper
  obtain inside | ⟨tail, rfl⟩ :=
    List.prefix_or_prefix_of_prefix shorter (List.prefix_append first second)
  · by_cases whole : short = first
    · have empty : [] ≠ second := by
        rintro rfl
        exact proper (whole.trans (List.append_nil first).symm)
      have run := reads.run f []
      rw [List.append_nil] at run
      rw [whole, run]
      exact hf [] List.nil_prefix empty
    · exact keeps _ _ (hm short inside whole)
  · rw [reads.run f tail]
    refine hf tail ((List.prefix_append_right_inj first).mp shorter) (fun same => ?_)
    exact proper (congrArg (first ++ ·) same)

theorem map {m : Reading α} {bytes : List UInt8} (hm : FailsShort m bytes) (f : α → β) :
    FailsShort (m >>= fun x => Pure.pure (f x)) bytes :=
  fun short shorter proper => hm short shorter proper

theorem foldlM {body : σ → ι → Reading σ} {bytes : α → List UInt8} {push : σ → α → σ}
    {items : List α} (short : ∀ item ∈ items, ∀ s i, FailsShort (body s i) (bytes item))
    (step : ∀ item ∈ items, ∀ s i, Reads (body s i) (bytes item) (push s item))
    (keeps : ∀ s i, Keeps (body s i)) :
    ∀ (rounds : List ι) (s : σ), rounds.length = items.length →
      FailsShort (rounds.foldlM body s) (items.flatMap bytes) := by
  induction items with
  | nil => exact fun rounds s _ => nil _
  | cons item items ih =>
      intro rounds s hlen
      obtain ⟨shortFirst, shortOthers⟩ := List.forall_mem_cons.mp short
      obtain ⟨first, others⟩ := List.forall_mem_cons.mp step
      cases rounds with
      | nil => exact nomatch hlen
      | cons i rounds =>
          rw [List.foldlM_cons, List.flatMap_cons]
          exact (shortFirst s i).bind (first s i)
            (ih shortOthers others rounds _ (Nat.succ.inj hlen))
            (fun s => Keeps.foldlM keeps rounds s)

theorem read {buf bytes : List UInt8} (h : bytes.length = buf.length) :
    FailsShort (read buf) bytes := by
  intro short shorter proper
  have hle := shorter.length_le
  have hne : short.length ≠ bytes.length := fun same => proper (shorter.eq_of_length same)
  have cut : ¬ buf.length ≤ short.length := by omega
  change (if buf.length ≤ short.length then _ else _ : List UInt8 × InputStream).2.failed = true
  rw [if_neg cut]

theorem readWord {width : Nat} (old word : Nat) :
    FailsShort (readWord width old) (LittleEndian.encode width word) := by
  apply FailsShort.map
  apply FailsShort.read
  rw [LittleEndian.length_encode, LittleEndian.length_encode]

theorem readWords {width : Nat} {old words : List Nat} (count : words.length = old.length) :
    FailsShort (readWords width old) (LittleEndian.encodeAll width words) := by
  apply FailsShort.map
  apply FailsShort.read
  rw [LittleEndian.length_encodeAll, LittleEndian.length_encodeAll, count]

end FailsShort

/-- On a stream with at most `left` bytes `m` delivers what satisfies `P`, and leaves no more
bytes, whether it fails or not. -/
def Delivers (left : Nat) (m : Reading α) (P : α → Prop) : Prop :=
  ∀ strm : InputStream, strm.rest.length ≤ left → (m strm).2.rest.length ≤ left ∧ P (m strm).1

namespace Delivers

variable {left : Nat} {P : α → Prop}

theorem pure {a : α} (h : P a) : Delivers left (pure a) P := fun _ few => ⟨few, h⟩

theorem bind {m : Reading α} {f : α → Reading β} {Q : β → Prop} (hm : Delivers left m P)
    (hf : ∀ a, P a → Delivers left (f a) Q) : Delivers left (m >>= f) Q := by
  intro strm few
  obtain ⟨fewer, h⟩ := hm strm few
  exact hf _ h _ fewer

theorem ite {c : Prop} [Decidable c] {yes no : Reading α} (hyes : Delivers left yes P)
    (hno : Delivers left no P) : Delivers left (if c then yes else no) P := by
  split
  · exact hyes
  · exact hno

theorem foldlM {body : σ → ι → Reading σ} (step : ∀ s i, Delivers left (body s i) fun _ => True) :
    ∀ (rounds : List ι) (s : σ), Delivers left (rounds.foldlM body s) fun _ => True := by
  intro rounds
  induction rounds with
  | nil => exact fun s => pure trivial
  | cons i rounds ih =>
      intro s
      rw [List.foldlM_cons]
      exact (step s i).bind fun s _ => ih s

/-- A buffer keeps its length. -/
theorem read (buf : List UInt8) :
    Delivers left (read buf) fun bytes => bytes.length = buf.length := by
  intro strm few
  rw [InputStream.read]
  split
  · split
    · next enough =>
        refine ⟨?_, List.length_take_of_le enough⟩
        change (strm.rest.drop buf.length).length ≤ left
        rw [List.length_drop]
        omega
    · next short =>
        refine ⟨Nat.zero_le _, ?_⟩
        change (strm.rest ++ buf.drop strm.rest.length).length = buf.length
        rw [List.length_append, List.length_drop]
        omega
  · exact ⟨few, rfl⟩

theorem readWord (width word : Nat) :
    Delivers left (readWord width word) fun word => word < 256 ^ width :=
  (read _).bind fun buf length => pure (by
    have below := LittleEndian.decode_lt buf
    rwa [length, LittleEndian.length_encode] at below)

theorem readWords (width : Nat) (words : List Nat) :
    Delivers left (readWords width words) fun read => read.length = words.length :=
  (read _).bind fun _ _ => pure (LittleEndian.length_decodeAll width words.length _)

theorem extract (width : Nat) (str : List UInt8) :
    Delivers left (extract width str) fun _ => True := by
  intro strm few
  refine ⟨?_, trivial⟩
  cases failed : (InputStream.extract width str strm).2.failed with
  | false => exact (extract_shorter failed).le.trans few
  | true =>
      revert failed
      rw [InputStream.extract]
      cases strm.good with
      | false => exact fun _ => few
      | true =>
          cases strm.rest.dropWhile isSpace with
          | nil => exact fun _ => Nat.zero_le left
          | cons c text => exact fun failed => nomatch failed

/-- Each round of the extraction loop takes something from the stream. -/
theorem whileExtract {width : Nat} {body : σ → List UInt8 → σ} (size : σ → Nat)
    (step : ∀ acc str, size (body acc str) ≤ size acc + 1) (acc : σ) (str : List UInt8) :
    Delivers left (whileExtract width body acc str)
      fun result => size result ≤ size acc + left := by
  intro strm few
  fun_induction InputStream.whileExtract width body acc str strm generalizing left with
  | case1 acc str strm failed => exact ⟨(extract width str strm few).1, Nat.le_add_right _ _⟩
  | case2 acc str strm extracted ih =>
      have shorter := extract_shorter (Bool.eq_false_iff.mpr extracted)
      obtain ⟨fewer, bound⟩ := ih (Nat.le_refl _)
      have grown := step acc (InputStream.extract width str strm).1
      omega

end Delivers

end InputStream
