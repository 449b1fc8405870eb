import Mathlib.Data.List.TakeWhile
import Mathlib.Tactic

/-!
# Formatted input from a byte stream

The input functions of the C library read a finite byte stream along a list of
directives.  A white-space directive skips white space.  A literal directive
takes its own byte and leaves any other unread.  `%s` and `%d` skip white space
and convert the longest run of bytes they accept, where `%d` has taken the sign
even if no digit follows it.  The scan stops at the first directive that fails.

Every directive looks at the byte behind what it takes.  If there is none, this
sets the end-of-file indicator of the stream.  More bytes at the end of a
stream therefore do not change what a directive does, unless it would take the
first of them.
-/

namespace FormatScan

def isSpace (byte : UInt8) : Bool :=
  byte == 32 || decide (9 ≤ byte ∧ byte ≤ 13)

def isDigit (byte : UInt8) : Bool :=
  decide (48 ≤ byte ∧ byte ≤ 57)

def isSign (byte : UInt8) : Bool :=
  byte == 43 || byte == 45

/-- A stream that is read: the bytes ahead and the end-of-file indicator,
which is only set at the end. -/
@[ext]
structure Stream where
  rest : List UInt8
  eof : Bool
  ended : eof = true → rest = []

namespace Stream

def ofBytes (bytes : List UInt8) : Stream where
  rest := bytes
  eof := false
  ended := nofun

/-- The stream after a look at its next byte. -/
def looked (bytes : List UInt8) : Stream where
  rest := bytes
  eof := bytes.isEmpty
  ended := by simp

/-- The stream with more bytes at its end. -/
def append (stream : Stream) (more : List UInt8) : Stream :=
  ofBytes (stream.rest ++ more)

def readWhile (accepts : UInt8 → Bool) (stream : Stream) :
    List UInt8 × Stream :=
  (stream.rest.takeWhile accepts,
    looked (stream.rest.dropWhile accepts))

def skipSpace (stream : Stream) : Stream :=
  (stream.readWhile isSpace).2

/-- Take the next byte if it is accepted. -/
def accept (accepts : UInt8 → Bool) (stream : Stream) :
    Option UInt8 × Stream :=
  match stream.rest with
  | [] => (none, looked [])
  | byte :: rest =>
      if accepts byte then (some byte, ofBytes rest)
      else (none, looked (byte :: rest))

end Stream

inductive Directive
  | space
  | literal (byte : UInt8)
  | string
  | decimal

inductive Value
  | text (bytes : List UInt8)
  | number (value : ℤ)
  deriving DecidableEq

def decimalValue (digits : List UInt8) : ℕ :=
  digits.foldl (fun value digit => 10 * value + (digit.toNat - 48)) 0

def signedValue (sign : Option UInt8) (digits : List UInt8) : ℤ :=
  if sign = some 45 then -(decimalValue digits) else decimalValue digits

/-- What the directive converts, `none` if it fails, and the stream behind
it. -/
def Directive.read :
    Directive → Stream → Option (List Value) × Stream
  | .space, stream => (some [], stream.skipSpace)
  | .literal byte, stream =>
      let taken := stream.accept (· == byte)
      (taken.1.map fun _ => [], taken.2)
  | .string, stream =>
      let word := stream.skipSpace.readWhile fun byte => !isSpace byte
      (if word.1 = [] then none else some [.text word.1], word.2)
  | .decimal, stream =>
      let sign := stream.skipSpace.accept isSign
      let digits := sign.2.readWhile isDigit
      (if digits.1 = [] then none
        else some [.number (signedValue sign.1 digits.1)], digits.2)

/-- The values converted before the first directive that fails, and the
stream behind them. -/
def scan : List Directive → Stream → List Value × Stream
  | [], stream => ([], stream)
  | directive :: format, stream =>
      let outcome := directive.read stream
      match outcome.1 with
      | none => ([], outcome.2)
      | some values =>
          let later := scan format outcome.2
          (values ++ later.1, later.2)

variable {stream : Stream} {accepts : UInt8 → Bool} {first : UInt8}
  {tail bytes : List UInt8}

/-! ## More bytes at the end -/

theorem looked_append (bytes : List UInt8) (first : UInt8)
    (tail : List UInt8) :
    Stream.looked (bytes ++ first :: tail) =
      (Stream.looked bytes).append (first :: tail) := by
  ext1
  · rfl
  · simp [Stream.looked, Stream.append, Stream.ofBytes]

/-- A run that ends before the new bytes, or at the first of them. -/
theorem readWhile_append
    (hstops : (∃ byte ∈ stream.rest, accepts byte = false) ∨
      accepts first = false) :
    (stream.append (first :: tail)).readWhile accepts =
      ((stream.readWhile accepts).1,
        (stream.readWhile accepts).2.append (first :: tail)) := by
  unfold Stream.readWhile
  change (List.takeWhile accepts (stream.rest ++ first :: tail),
    Stream.looked (List.dropWhile accepts (stream.rest ++ first :: tail))) =
      _
  rw [← looked_append, List.takeWhile_append, List.dropWhile_append]
  by_cases hall : ∀ byte ∈ stream.rest, accepts byte = true
  · -- the run reaches the new bytes and stops there
    have hfirst : accepts first = false := by
      rcases hstops with ⟨byte, hmem, hbyte⟩ | hfirst
      · rw [hall byte hmem] at hbyte
        contradiction
      · exact hfirst
    rw [List.takeWhile_eq_self_iff.mpr hall,
      List.dropWhile_eq_nil_iff.mpr hall]
    simp [hfirst]
  · have htake :
        (stream.rest.takeWhile accepts).length ≠ stream.rest.length := by
      intro hlength
      apply hall
      rw [← List.takeWhile_eq_self_iff]
      exact (List.takeWhile_prefix accepts).eq_of_length hlength
    have hdrop : stream.rest.dropWhile accepts ≠ [] := by
      rw [ne_eq, List.dropWhile_eq_nil_iff]
      exact hall
    rw [if_neg htake, if_neg (by rwa [List.isEmpty_iff])]

theorem skipSpace_append (hfirst : isSpace first = false) :
    (stream.append (first :: tail)).skipSpace =
      stream.skipSpace.append (first :: tail) := by
  unfold Stream.skipSpace
  rw [readWhile_append (Or.inr hfirst)]

theorem accept_append (accepts : UInt8 → Bool)
    (hfirst : accepts first = false) :
    (stream.append (first :: tail)).accept accepts =
      ((stream.accept accepts).1,
        (stream.accept accepts).2.append (first :: tail)) := by
  obtain ⟨rest, eof, ended⟩ := stream
  cases rest with
  | nil =>
      simp only [Stream.accept, Stream.append, Stream.ofBytes,
        List.nil_append, hfirst]
      rfl
  | cons byte rest =>
      by_cases hbyte : accepts byte = true
      · simp [Stream.accept, Stream.append, Stream.ofBytes, hbyte]
      · simp [Stream.accept, Stream.append, Stream.ofBytes, hbyte,
          Stream.looked]

namespace Directive

/-- The first of the new bytes ends whatever the directive takes. -/
def StopsAt (first : UInt8) (stream : Stream) : Directive → Prop
  | .space => isSpace first = false
  | .literal byte => first ≠ byte
  | .string => isSpace first = false ∧
      ∃ byte ∈ stream.skipSpace.rest, isSpace byte = true
  | .decimal => isSpace first = false ∧ isSign first = false ∧
      isDigit first = false

theorem read_append {directive : Directive}
    (hstops : directive.StopsAt first stream) (tail : List UInt8) :
    directive.read (stream.append (first :: tail)) =
      ((directive.read stream).1,
        (directive.read stream).2.append (first :: tail)) := by
  cases directive with
  | space =>
      simp only [read]
      rw [skipSpace_append hstops]
  | literal byte =>
      simp only [read]
      rw [accept_append (· == byte) (beq_eq_false_iff_ne.mpr hstops)]
  | string =>
      obtain ⟨hfirst, byte, hmem, hbyte⟩ := hstops
      simp only [read]
      rw [skipSpace_append hfirst,
        readWhile_append (Or.inl ⟨byte, hmem, by simp [hbyte]⟩)]
  | decimal =>
      obtain ⟨hspace, hsign, hdigit⟩ := hstops
      simp only [read]
      rw [skipSpace_append hspace, accept_append isSign hsign,
        readWhile_append (Or.inr hdigit)]

end Directive

theorem scan_append {format : List Directive}
    (hstops : ∀ directive ∈ format, ∀ stream,
      directive.StopsAt first stream) (stream : Stream)
    (tail : List UInt8) :
    scan format (stream.append (first :: tail)) =
      ((scan format stream).1,
        (scan format stream).2.append (first :: tail)) := by
  induction format generalizing stream with
  | nil => rfl
  | cons directive format ih =>
      have hread := Directive.read_append
        (hstops directive List.mem_cons_self stream) tail
      have hrest := ih
        fun other hmem => hstops other (List.mem_cons_of_mem _ hmem)
      simp only [scan, hread, hrest]
      cases (directive.read stream).1 with
      | none => rfl
      | some values => rfl

/-! ## What is left unread -/

theorem readWhile_suffix :
    (stream.readWhile accepts).2.rest <:+ stream.rest :=
  List.dropWhile_suffix accepts

theorem skipSpace_suffix : stream.skipSpace.rest <:+ stream.rest :=
  readWhile_suffix

theorem accept_suffix :
    (stream.accept accepts).2.rest <:+ stream.rest := by
  unfold Stream.accept
  split
  next hrest =>
    rw [hrest]
    exact List.suffix_refl []
  next byte rest hrest =>
    rw [hrest]
    split
    · exact List.suffix_cons byte rest
    · exact List.suffix_refl _

theorem Directive.read_suffix (directive : Directive) (stream : Stream) :
    (directive.read stream).2.rest <:+ stream.rest := by
  cases directive with
  | space => exact skipSpace_suffix
  | literal byte => exact accept_suffix
  | string => exact readWhile_suffix.trans skipSpace_suffix
  | decimal =>
      exact readWhile_suffix.trans (accept_suffix.trans skipSpace_suffix)

theorem scan_suffix (format : List Directive) (stream : Stream) :
    (scan format stream).2.rest <:+ stream.rest := by
  induction format generalizing stream with
  | nil => exact List.suffix_refl _
  | cons directive format ih =>
      have hread := directive.read_suffix stream
      simp only [scan]
      split
      next => exact hread
      next values _ => exact (ih _).trans hread

/-! ## Words -/

/-- `%s` fails only at the end of the stream. -/
theorem eof_of_read_string_none
    (hnone : (Directive.string.read stream).1 = none) :
    (Directive.string.read stream).2.eof = true := by
  simp only [Directive.read, Stream.readWhile] at hnone ⊢
  have htake : stream.skipSpace.rest.takeWhile (fun b => !isSpace b) = [] := by
    by_contra hne
    simp [hne] at hnone
  -- a byte behind the white space would be part of a word
  have hrest : stream.skipSpace.rest = [] := by
    by_contra hne
    have hhead := List.head_dropWhile_not isSpace hne
    obtain ⟨byte, rest, hcons⟩ := List.exists_cons_of_ne_nil hne
    rw [hcons] at htake
    change stream.rest.dropWhile isSpace = byte :: rest at hcons
    simp only [hcons, List.head_cons] at hhead
    simp [hhead] at htake
  rw [hrest]
  rfl

/-- A word that is converted has been taken. -/
theorem length_lt_of_read_string_some {values : List Value}
    (hsome : (Directive.string.read stream).1 = some values) :
    (Directive.string.read stream).2.rest.length < stream.rest.length := by
  simp only [Directive.read, Stream.readWhile] at hsome ⊢
  have htake :
      stream.skipSpace.rest.takeWhile (fun b => !isSpace b) ≠ [] := by
    intro hnil
    simp [hnil] at hsome
  have hsplit := congrArg List.length
    (List.takeWhile_append_dropWhile
      (p := fun b => !isSpace b) (l := stream.skipSpace.rest))
  rw [List.length_append] at hsplit
  have hpos := List.length_pos_iff.mpr htake
  have hle : stream.skipSpace.rest.length ≤ stream.rest.length :=
    skipSpace_suffix.length_le
  change (stream.skipSpace.rest.dropWhile _).length < _
  omega

/-- White space in front of a word does not matter. -/
theorem skipSpace_ofBytes_append
    (hspaces : ∀ byte ∈ bytes, isSpace byte = true) (rest : List UInt8) :
    (Stream.ofBytes (bytes ++ rest)).skipSpace =
      (Stream.ofBytes rest).skipSpace := by
  simp only [Stream.skipSpace, Stream.readWhile, Stream.ofBytes]
  rw [List.dropWhile_append_of_pos hspaces]

/-! ## Runs written out -/

theorem isDigit_facts (hdigit : isDigit first = true) :
    isSpace first = false ∧ isSign first = false := by
  simp only [isDigit, isSpace, isSign, decide_eq_true_eq,
    UInt8.le_iff_toNat_le, Bool.or_eq_false_iff, beq_eq_false_iff_ne,
    decide_eq_false_iff_not, ne_eq, ← UInt8.toNat_inj] at hdigit ⊢
  simp only [UInt8.reduceToNat] at hdigit ⊢
  omega

theorem isSign_facts (hsign : isSign first = true) :
    isSpace first = false := by
  simp only [isSign, Bool.or_eq_true, beq_iff_eq] at hsign
  rcases hsign with rfl | rfl <;> rfl

variable {spaces run rest : List UInt8}

theorem readWhile_run (hrest : stream.rest = run ++ rest)
    (hrun : ∀ byte ∈ run, accepts byte = true)
    (hstop : ∀ byte ∈ rest.head?, accepts byte = false) :
    stream.readWhile accepts = (run, Stream.looked rest) := by
  unfold Stream.readWhile
  rw [hrest, List.takeWhile_append_of_pos hrun,
    List.dropWhile_append_of_pos hrun]
  cases rest with
  | nil => simp
  | cons byte rest =>
      have hbyte : accepts byte = false := hstop byte rfl
      simp [hbyte]

theorem skipSpace_run (hrest : stream.rest = spaces ++ rest)
    (hspaces : ∀ byte ∈ spaces, isSpace byte = true)
    (hstop : ∀ byte ∈ rest.head?, isSpace byte = false) :
    stream.skipSpace = Stream.looked rest := by
  unfold Stream.skipSpace
  rw [readWhile_run hrest hspaces hstop]

theorem read_space (stream : Stream) :
    Directive.space.read stream = (some [], stream.skipSpace) :=
  rfl

theorem read_string_run (hrest : stream.rest = spaces ++ (run ++ rest))
    (hspaces : ∀ byte ∈ spaces, isSpace byte = true)
    (hrun : ∀ byte ∈ run, isSpace byte = false) (hne : run ≠ [])
    (hstop : ∀ byte ∈ rest.head?, isSpace byte = true) :
    Directive.string.read stream =
      (some [.text run], Stream.looked rest) := by
  have hskip : stream.skipSpace = Stream.looked (run ++ rest) := by
    apply skipSpace_run hrest hspaces
    rw [List.head?_append_of_ne_nil _ hne]
    intro byte hbyte
    exact hrun byte (List.mem_of_mem_head? hbyte)
  have hword : (Stream.looked (run ++ rest)).readWhile
      (fun byte => !isSpace byte) = (run, Stream.looked rest) := by
    apply readWhile_run rfl
    · simpa using hrun
    · simpa using hstop
  simp only [Directive.read, hskip, hword, hne, if_false]

theorem read_literal_run {byte : UInt8} (hrest : stream.rest = byte :: rest) :
    (Directive.literal byte).read stream =
      (some [], Stream.ofBytes rest) := by
  simp [Directive.read, Stream.accept, hrest]

/-- An optional sign in front of other bytes. -/
theorem accept_sign_run {sign : Option UInt8}
    (hrest : stream.rest = sign.toList ++ rest)
    (hsign : ∀ byte ∈ sign, isSign byte = true)
    (hstop : ∀ byte ∈ rest.head?, isSign byte = false) :
    (stream.accept isSign).1 = sign ∧
      (stream.accept isSign).2.rest = rest := by
  cases sign with
  | some byte => simp [Stream.accept, hrest, hsign byte, Stream.ofBytes]
  | none =>
      cases rest with
      | nil => simp [Stream.accept, hrest, Stream.looked]
      | cons byte rest =>
          have hbyte : isSign byte = false := hstop byte rfl
          simp [Stream.accept, hrest, hbyte, Stream.looked]

theorem head_digits (hrun : ∀ byte ∈ run, isDigit byte = true)
    (hne : run ≠ []) :
    ∀ byte ∈ (run ++ rest).head?, isDigit byte = true := by
  rw [List.head?_append_of_ne_nil _ hne]
  intro byte hbyte
  exact hrun byte (List.mem_of_mem_head? hbyte)

/-- A number does not start with white space. -/
theorem head_number {sign : Option UInt8}
    (hsign : ∀ byte ∈ sign, isSign byte = true)
    (hrun : ∀ byte ∈ run, isDigit byte = true) (hne : run ≠ []) :
    ∀ byte ∈ (sign.toList ++ (run ++ rest)).head?,
      isSpace byte = false := by
  cases sign with
  | some byte => simpa using isSign_facts (hsign byte rfl)
  | none =>
      intro byte hbyte
      exact (isDigit_facts (head_digits hrun hne byte hbyte)).1

theorem read_decimal_run {sign : Option UInt8}
    (hrest : stream.rest = sign.toList ++ (run ++ rest))
    (hsign : ∀ byte ∈ sign, isSign byte = true)
    (hrun : ∀ byte ∈ run, isDigit byte = true) (hne : run ≠ [])
    (hstop : ∀ byte ∈ rest.head?, isDigit byte = false) :
    Directive.decimal.read stream =
      (some [.number (signedValue sign run)], Stream.looked rest) := by
  have hnone : stream.rest = [] ++ (sign.toList ++ (run ++ rest)) := hrest
  have hskip := skipSpace_run hnone (by simp)
    (head_number hsign hrun hne)
  have hlooked : (Stream.looked (sign.toList ++ (run ++ rest))).rest =
      sign.toList ++ (run ++ rest) := rfl
  obtain ⟨htaken, hleft⟩ := accept_sign_run hlooked hsign
    fun byte hbyte =>
      (isDigit_facts (head_digits hrun hne byte hbyte)).2
  simp only [Directive.read, hskip, htaken,
    readWhile_run hleft hrun hstop, hne, if_false]

end FormatScan
