import Saio.FormatScan
import Mathlib.Tactic

/-!
# Reading the configuration file

`setup` reads its file with `fscanf(fp, "%s = %d", ..)` in a loop.  A round that
converts both values gives an option.  Any other round ends the loop at the end
of the file, and otherwise the next one goes on where the failed directive
stopped.

The reader knows nothing of lines: its white-space directives cross them, and
a round may fail at any of its five directives.  Still, every round takes at
least one word, so the loop ends.  And whatever stands in front of a line start
that begins with a letter, a round stops there: white space ends words and
numbers, and a letter is neither `=` nor part of a number.
-/

namespace Saio

open FormatScan

/-- `"%s = %d"`. -/
def optionFormat : List Directive :=
  [.string, .space, .literal 61, .space, .decimal]

structure ConfigOption where
  key : List UInt8
  val : ℤ
  deriving DecidableEq

/-- Both values were converted. -/
def ConfigOption.ofValues : List Value → Option ConfigOption
  | [.text key, .number val] => some ⟨key, val⟩
  | _ => none

/-- The loop of `setup` with the options it applies; `none` if the rounds run
out. -/
def setupLoop : ℕ → Stream → Option (List ConfigOption)
  | 0, _ => none
  | rounds + 1, stream =>
      let scanned := scan optionFormat stream
      match ConfigOption.ofValues scanned.1 with
      | some option =>
          (setupLoop rounds scanned.2).map fun later => option :: later
      | none =>
          if scanned.2.eof then some [] else setupLoop rounds scanned.2

/-- One round for every byte and one for the end are enough. -/
def optionsFrom (stream : Stream) : List ConfigOption :=
  (setupLoop (stream.rest.length + 1) stream).getD []

def setupOptions (file : List UInt8) : List ConfigOption :=
  optionsFrom (.ofBytes file)

variable {stream : Stream} {file front tail : List UInt8} {first : UInt8}

/-! ## The loop ends -/

/-- A round takes a word or meets the end of the file. -/
theorem scan_option_progress (stream : Stream) :
    (ConfigOption.ofValues (scan optionFormat stream).1 = none ∧
        (scan optionFormat stream).2.eof = true) ∨
      (scan optionFormat stream).2.rest.length < stream.rest.length := by
  cases hread : (Directive.string.read stream).1 with
  | none =>
      left
      simp only [optionFormat, scan, hread]
      exact ⟨rfl, eof_of_read_string_none hread⟩
  | some values =>
      right
      have hword := length_lt_of_read_string_some hread
      have hrest :=
        (scan_suffix [.space, .literal 61, .space, .decimal]
          (Directive.string.read stream).2).length_le
      rw [optionFormat, scan, hread]
      exact hrest.trans_lt hword

/-- More rounds than bytes are enough, and further ones change nothing. -/
theorem setupLoop_same {rounds more : ℕ}
    (hrounds : stream.rest.length < rounds)
    (hmore : stream.rest.length < more) :
    setupLoop rounds stream = setupLoop more stream ∧
      (setupLoop rounds stream).isSome = true := by
  induction rounds generalizing more stream with
  | zero => omega
  | succ rounds ih =>
      obtain ⟨more, rfl⟩ : ∃ count, more = count + 1 :=
        ⟨more - 1, by omega⟩
      have hprogress := scan_option_progress stream
      simp only [setupLoop]
      cases hvalues : ConfigOption.ofValues
          (scan optionFormat stream).1 with
      | some option =>
          have hless := hprogress.resolve_left (by simp [hvalues])
          have hlater : setupLoop rounds (scan optionFormat stream).2 =
                setupLoop more (scan optionFormat stream).2 ∧
              (setupLoop rounds
                (scan optionFormat stream).2).isSome = true :=
            ih (by omega) (by omega)
          simp only [Option.isSome_map, hlater.2, and_true]
          rw [hlater.1]
      | none =>
          by_cases heof : (scan optionFormat stream).2.eof = true
          · simp [heof]
          · have hless := hprogress.resolve_left (by simp [heof])
            simp only [heof, Bool.false_eq_true, if_false]
            exact ih (by omega) (by omega)

theorem setupLoop_eq {rounds : ℕ}
    (hrounds : stream.rest.length < rounds) :
    setupLoop rounds stream = some (optionsFrom stream) := by
  obtain ⟨hequal, hsome⟩ :=
    setupLoop_same hrounds (Nat.lt_succ_self stream.rest.length)
  rw [hequal] at hsome
  obtain ⟨options, hoptions⟩ := Option.isSome_iff_exists.mp hsome
  rw [hequal, optionsFrom, hoptions]
  rfl

/-- The loop of `setup` as an equation. -/
theorem optionsFrom_eq (stream : Stream) :
    optionsFrom stream =
      match ConfigOption.ofValues (scan optionFormat stream).1 with
      | some option =>
          option :: optionsFrom (scan optionFormat stream).2
      | none =>
          if (scan optionFormat stream).2.eof then []
          else optionsFrom (scan optionFormat stream).2 := by
  have hprogress := scan_option_progress stream
  conv_lhs => rw [optionsFrom, setupLoop]
  cases hvalues : ConfigOption.ofValues
      (scan optionFormat stream).1 with
  | some option =>
      have hless := hprogress.resolve_left (by simp [hvalues])
      simp only [setupLoop_eq hless]
      rfl
  | none =>
      by_cases heof : (scan optionFormat stream).2.eof = true
      · simp [heof]
      · have hless := hprogress.resolve_left (by simp [heof])
        simp only [heof, Bool.false_eq_true, if_false,
          setupLoop_eq hless]
        rfl

/-! ## Line starts -/

def newline : UInt8 := 10

def isLetter (byte : UInt8) : Bool :=
  decide (65 ≤ byte ∧ byte ≤ 90) || decide (97 ≤ byte ∧ byte ≤ 122)

/-- Nothing, or whole lines. -/
def WholeLines (bytes : List UInt8) : Prop :=
  bytes = [] ∨ bytes.getLast? = some newline

instance (bytes : List UInt8) : Decidable (WholeLines bytes) :=
  inferInstanceAs (Decidable (_ ∨ _))

theorem WholeLines.of_suffix {bytes rest : List UInt8}
    (hlines : WholeLines bytes) (hsuffix : rest <:+ bytes) :
    WholeLines rest := by
  by_cases hrest : rest = []
  · exact Or.inl hrest
  · right
    obtain ⟨taken, rfl⟩ := hsuffix
    have hlast := hlines.resolve_left (by simp [hrest])
    rwa [List.getLast?_append_of_ne_nil _ hrest] at hlast

theorem isLetter_facts (hletter : isLetter first = true) :
    isSpace first = false ∧ isSign first = false ∧
      isDigit first = false ∧ first ≠ 61 := by
  simp only [isLetter, isSpace, isSign, isDigit, Bool.or_eq_true,
    decide_eq_true_eq, UInt8.le_iff_toNat_le, Bool.or_eq_false_iff,
    beq_eq_false_iff_ne, decide_eq_false_iff_not, ne_eq,
    ← UInt8.toNat_inj] at hletter ⊢
  simp only [UInt8.reduceToNat] at hletter ⊢
  omega

/-- Behind the word of a round every directive stops at a letter. -/
theorem stopsAt_letter (hletter : isLetter first = true) :
    ∀ directive ∈ [Directive.space, .literal 61, .space, .decimal],
      ∀ stream, directive.StopsAt first stream := by
  obtain ⟨hspace, hsign, hdigit, hequals⟩ := isLetter_facts hletter
  simp only [List.mem_cons, List.not_mem_nil, or_false]
  rintro directive (rfl | rfl | rfl | rfl) stream
  · exact hspace
  · exact hequals
  · exact hspace
  · exact ⟨hspace, hsign, hdigit⟩

/-- A round that starts with a word in front of the letter stays in front of
it. -/
theorem scan_option_append (hletter : isLetter first = true)
    (hlines : WholeLines stream.rest)
    (hword : stream.skipSpace.rest ≠ []) :
    scan optionFormat (stream.append (first :: tail)) =
      ((scan optionFormat stream).1,
        (scan optionFormat stream).2.append (first :: tail)) := by
  have hstring : Directive.string.StopsAt first stream := by
    refine ⟨(isLetter_facts hletter).1, newline, ?_, rfl⟩
    have hlast :=
      (hlines.of_suffix skipSpace_suffix).resolve_left hword
    exact List.mem_of_getLast? hlast
  have hread := Directive.read_append hstring tail
  have hlater := scan_append (stopsAt_letter hletter)
  simp only [optionFormat, scan] at hlater ⊢
  rw [hread]
  cases (Directive.string.read stream).1 with
  | none => rfl
  | some values => simp only [hlater]

theorem scan_option_of_skipSpace {other : Stream}
    (hsame : stream.skipSpace = other.skipSpace) :
    scan optionFormat stream = scan optionFormat other := by
  have hread : Directive.string.read stream =
      Directive.string.read other := by
    simp only [Directive.read, hsame]
  simp only [optionFormat, scan, hread]

theorem optionsFrom_of_skipSpace {other : Stream}
    (hsame : stream.skipSpace = other.skipSpace) :
    optionsFrom stream = optionsFrom other := by
  rw [optionsFrom_eq stream, optionsFrom_eq other,
    scan_option_of_skipSpace hsame]

/-- There is no option in white space. -/
theorem optionsFrom_of_noWord (hnone : stream.skipSpace.rest = []) :
    optionsFrom stream = [] := by
  have hread : (Directive.string.read stream).1 = none := by
    simp [Directive.read, Stream.readWhile, hnone]
  have heof := eof_of_read_string_none hread
  rw [optionsFrom_eq]
  simp [optionFormat, scan, hread, heof, ConfigOption.ofValues]

theorem setupOptions_nil : setupOptions [] = [] :=
  optionsFrom_of_noWord rfl

/-- The options in front of a line start, and then those behind it. -/
theorem optionsFrom_append (hletter : isLetter first = true)
    (hlines : WholeLines stream.rest) (tail : List UInt8) :
    optionsFrom (stream.append (first :: tail)) =
      optionsFrom stream ++ setupOptions (first :: tail) := by
  -- by induction on what is left in front of the line start
  induction hlength : stream.rest.length using Nat.strong_induction_on
    generalizing stream with
  | _ length ih =>
      by_cases hword : stream.skipSpace.rest = []
      · have hspaces : ∀ byte ∈ stream.rest, isSpace byte = true :=
          List.dropWhile_eq_nil_iff.mp hword
        rw [optionsFrom_of_noWord hword, List.nil_append]
        exact optionsFrom_of_skipSpace
          (skipSpace_ofBytes_append hspaces _)
      · have hless : (scan optionFormat stream).2.rest.length < length := by
          rcases scan_option_progress stream with ⟨_, heof⟩ | hless
          · rw [(scan optionFormat stream).2.ended heof, List.length_nil,
              ← hlength]
            have hpos := List.length_pos_iff.mpr hword
            have hle : stream.skipSpace.rest.length ≤
                stream.rest.length := skipSpace_suffix.length_le
            omega
          · rwa [← hlength]
        have hlater := ih _ hless
          (hlines.of_suffix (scan_suffix optionFormat stream)) rfl
        rw [optionsFrom_eq stream, optionsFrom_eq (stream.append _),
          scan_option_append hletter hlines hword]
        cases ConfigOption.ofValues (scan optionFormat stream).1 with
        | some option => simp only [hlater, List.cons_append]
        | none =>
            have hopen :
                ((scan optionFormat stream).2.append
                  (first :: tail)).eof = false := rfl
            simp only [hopen, Bool.false_eq_true, if_false, hlater]
            split
            next heof =>
              have hend : (scan optionFormat stream).2.skipSpace.rest =
                  [] := by
                apply List.dropWhile_eq_nil_iff.mpr
                simp [(scan optionFormat stream).2.ended heof]
              rw [optionsFrom_of_noWord hend]
            next => rfl

/-- The loop ends on every file, and the options in front of a line start are
followed by those from there on. -/
theorem setup_ends_and_resynchronises :
    (∀ (file : List UInt8) (rounds : ℕ), file.length < rounds →
      setupLoop rounds (.ofBytes file) = some (setupOptions file)) ∧
    ∀ front rest : List UInt8,
      (front = [] ∨ front.getLast? = some newline) →
      (∃ first tail, rest = first :: tail ∧ isLetter first = true) →
        setupOptions (front ++ rest) =
          setupOptions front ++ setupOptions rest := by
  constructor
  · intro file rounds hrounds
    exact setupLoop_eq hrounds
  · rintro front rest hlines ⟨first, tail, rfl, hletter⟩
    have hfront : WholeLines (Stream.ofBytes front).rest := hlines
    exact optionsFrom_append hletter hfront tail

def ascii (text : String) : List UInt8 :=
  text.toList.map Char.toUInt8

/-- A key without a value, and a sign without digits. -/
def brokenLines : List UInt8 := ascii "max_table_len\na = +\n"

def lengthLine : List UInt8 := ascii "max_table_len = 3"

theorem brokenLines_resynchronise :
    setupOptions (brokenLines ++ lengthLine) =
        setupOptions brokenLines ++ setupOptions lengthLine ∧
      setupOptions brokenLines = [] ∧
      setupOptions lengthLine = [⟨ascii "max_table_len", 3⟩] :=
  ⟨setup_ends_and_resynchronises.2 brokenLines lengthLine
      (Or.inr (by decide)) ⟨109, _, rfl, rfl⟩, by decide, by decide⟩

end Saio
