import Saio.ConfigReader
import Mathlib.Tactic

/-!
# The installed configuration

`setup` allocates a configuration, applies the options of the file to it one
after the other, and hands the result to `init_config` and to the `config`
system call.  Without a file it hands on `default_config`.  With a file nothing
of `default_config` is used: a field that no option names keeps what the
allocated memory held.

A well-formed file is a list of lines, each blank or of the form `key = value`.
The reader finds exactly its options, so the seven installed values are those
of the file alone exactly if it names every key and the ratio of the two worker
numbers can be computed.
-/

namespace Saio

open FormatScan

/-! ## The configuration and its keys -/

structure EscaConfig where
  escaLocalize : ℤ
  maxTableEntry : ℤ
  maxTableLen : ℤ
  maxUsrWorker : ℤ
  maxKerWorker : ℤ
  defaultIdleTime : ℤ
  affinityOffset : ℤ
  deriving DecidableEq

def defaultConfig : EscaConfig where
  escaLocalize := 1
  maxTableEntry := 64
  maxTableLen := 1
  maxUsrWorker := 1
  maxKerWorker := 1
  defaultIdleTime := 150
  affinityOffset := 0

inductive ConfigKey
  | escaLocalize
  | maxTableEntry
  | maxTableLen
  | maxUsrWorker
  | maxKerWorker
  | defaultIdleTime
  | affinityOffset
  deriving DecidableEq

namespace ConfigKey

def text : ConfigKey → String
  | .escaLocalize => "esca_localize"
  | .maxTableEntry => "max_table_entry"
  | .maxTableLen => "max_table_len"
  | .maxUsrWorker => "max_usr_worker"
  | .maxKerWorker => "max_ker_worker"
  | .defaultIdleTime => "default_idle_time"
  | .affinityOffset => "affinity_offset"

theorem text_injective {key other : ConfigKey}
    (hsame : ascii key.text = ascii other.text) : key = other := by
  revert hsame
  cases key <;> cases other <;> decide

end ConfigKey

namespace EscaConfig

def field (config : EscaConfig) : ConfigKey → ℤ
  | .escaLocalize => config.escaLocalize
  | .maxTableEntry => config.maxTableEntry
  | .maxTableLen => config.maxTableLen
  | .maxUsrWorker => config.maxUsrWorker
  | .maxKerWorker => config.maxKerWorker
  | .defaultIdleTime => config.defaultIdleTime
  | .affinityOffset => config.affinityOffset

def store (config : EscaConfig) (key : ConfigKey) (val : ℤ) :
    EscaConfig :=
  match key with
  | .escaLocalize => { config with escaLocalize := val }
  | .maxTableEntry => { config with maxTableEntry := val }
  | .maxTableLen => { config with maxTableLen := val }
  | .maxUsrWorker => { config with maxUsrWorker := val }
  | .maxKerWorker => { config with maxKerWorker := val }
  | .defaultIdleTime => { config with defaultIdleTime := val }
  | .affinityOffset => { config with affinityOffset := val }

theorem field_store (config : EscaConfig) (key other : ConfigKey)
    (val : ℤ) :
    (config.store key val).field other =
      if other = key then val else config.field other := by
  cases key <;> cases other <;> rfl

end EscaConfig

/-- What `strcmp` sees of a buffer. -/
def cString (bytes : List UInt8) : List UInt8 :=
  bytes.takeWhile (· != 0)

/-- `strcmp(option.key, ..) == 0`. -/
def ConfigOption.Names (option : ConfigOption) (key : ConfigKey) : Prop :=
  cString option.key = ascii key.text

instance (option : ConfigOption) (key : ConfigKey) :
    Decidable (option.Names key) :=
  inferInstanceAs (Decidable (_ = _))

namespace EscaConfig

def applyOption (config : EscaConfig) (option : ConfigOption) :
    EscaConfig :=
  if option.Names .escaLocalize then
    config.store .escaLocalize option.val
  else if option.Names .maxTableEntry then
    config.store .maxTableEntry option.val
  else if option.Names .maxTableLen then
    config.store .maxTableLen option.val
  else if option.Names .maxUsrWorker then
    config.store .maxUsrWorker option.val
  else if option.Names .maxKerWorker then
    config.store .maxKerWorker option.val
  else if option.Names .defaultIdleTime then
    config.store .defaultIdleTime option.val
  else if option.Names .affinityOffset then
    config.store .affinityOffset option.val
  else config

variable {config : EscaConfig} {option : ConfigOption} {key : ConfigKey}

theorem field_store_of_names (hnames : option.Names key)
    (other : ConfigKey) :
    (config.store key option.val).field other =
      if option.Names other then option.val else config.field other := by
  rw [field_store]
  by_cases hother : other = key
  · rw [if_pos hother, hother, if_pos hnames]
  · rw [if_neg hother, if_neg]
    intro hboth
    exact hother (ConfigKey.text_injective (hboth.symm.trans hnames))

theorem field_applyOption (config : EscaConfig) (option : ConfigOption)
    (key : ConfigKey) :
    (config.applyOption option).field key =
      if option.Names key then option.val else config.field key := by
  generalize hvalue :
    (if option.Names key then option.val else config.field key) = value
  unfold applyOption
  split_ifs with hlocalize hentry hlen husr hker hidle hoffset
  · exact (field_store_of_names hlocalize key).trans hvalue
  · exact (field_store_of_names hentry key).trans hvalue
  · exact (field_store_of_names hlen key).trans hvalue
  · exact (field_store_of_names husr key).trans hvalue
  · exact (field_store_of_names hker key).trans hvalue
  · exact (field_store_of_names hidle key).trans hvalue
  · exact (field_store_of_names hoffset key).trans hvalue
  · have hnone : ¬ option.Names key := by
      cases key with
      | escaLocalize => exact hlocalize
      | maxTableEntry => exact hentry
      | maxTableLen => exact hlen
      | maxUsrWorker => exact husr
      | maxKerWorker => exact hker
      | defaultIdleTime => exact hidle
      | affinityOffset => exact hoffset
    rw [← hvalue, if_neg hnone]

end EscaConfig

/-- The value of the last option that names the key. -/
def lastAssigned (options : List ConfigOption) (key : ConfigKey) :
    Option ℤ :=
  (options.filter fun option => option.Names key).getLast?.map
    ConfigOption.val

theorem lastAssigned_eq_none_iff {options : List ConfigOption}
    {key : ConfigKey} :
    lastAssigned options key = none ↔
      ∀ option ∈ options, ¬ option.Names key := by
  simp [lastAssigned]

/-- After the loop a field holds the last value assigned to it, or still what
it held before. -/
theorem EscaConfig.field_foldl_applyOption (config : EscaConfig)
    (options : List ConfigOption) (key : ConfigKey) :
    (options.foldl applyOption config).field key =
      (lastAssigned options key).getD (config.field key) := by
  induction options using List.reverseRecOn with
  | nil => rfl
  | append_singleton options option ih =>
      rw [List.foldl_append, List.foldl_cons, List.foldl_nil,
        field_applyOption, ih]
      unfold lastAssigned
      rw [List.filter_append]
      by_cases hnames : option.Names key
      · simp [hnames]
      · simp [hnames]

/-! ## Installing it -/

structure ConfigGlobals where
  escaLocalize : ℤ
  maxTableEntry : ℤ
  maxTableLen : ℤ
  maxUsrWorker : ℤ
  maxCpuNum : ℤ
  ratio : ℤ
  defaultIdleTime : ℤ
  affOff : ℤ

/-- The quotient of two `int`s is an `int`. -/
def Divisible (dividend divisor : ℤ) : Prop :=
  divisor ≠ 0 ∧ ¬ (dividend = -2 ^ 31 ∧ divisor = -1)

instance (dividend divisor : ℤ) : Decidable (Divisible dividend divisor) :=
  inferInstanceAs (Decidable (_ ∧ _))

/-- The assignments that the library and the module share; `none` stands for
the undefined division. -/
def installConfig (c : EscaConfig) : Option ConfigGlobals :=
  if Divisible c.maxKerWorker c.maxUsrWorker then
    some {
      escaLocalize := c.escaLocalize
      maxTableEntry := c.maxTableEntry
      maxTableLen := c.maxTableLen
      maxUsrWorker := c.maxUsrWorker
      maxCpuNum := c.maxKerWorker
      ratio := c.maxKerWorker.tdiv c.maxUsrWorker
      defaultIdleTime := c.defaultIdleTime
      affOff := c.affinityOffset }
  else none

def initConfig (c : EscaConfig) : Option ConfigGlobals :=
  installConfig c

def sysEscaInitConfig (kconfig : EscaConfig) : Option ConfigGlobals :=
  installConfig kconfig

structure Installed where
  user : ConfigGlobals
  kernel : ConfigGlobals

/-- `allocated` is what the memory from `malloc` holds, and `file` the bytes
of the configuration file if it can be opened. -/
def setup (allocated : EscaConfig) (file : Option (List UInt8)) :
    Option Installed :=
  let config :=
    match file with
    | none => defaultConfig
    | some bytes =>
        (setupOptions bytes).foldl EscaConfig.applyOption allocated
  match initConfig config, sysEscaInitConfig config with
  | some user, some kernel => some ⟨user, kernel⟩
  | _, _ => none

def ConfigGlobals.field (globals : ConfigGlobals) : ConfigKey → ℤ
  | .escaLocalize => globals.escaLocalize
  | .maxTableEntry => globals.maxTableEntry
  | .maxTableLen => globals.maxTableLen
  | .maxUsrWorker => globals.maxUsrWorker
  | .maxKerWorker => globals.maxCpuNum
  | .defaultIdleTime => globals.defaultIdleTime
  | .affinityOffset => globals.affOff

/-- Both sides hold these seven values. -/
def Installed.Holds (installed : Installed) (values : ConfigKey → ℤ) :
    Prop :=
  ∀ key, installed.user.field key = values key ∧
    installed.kernel.field key = values key

theorem installConfig_eq_some {c : EscaConfig} {globals : ConfigGlobals}
    (hinstall : installConfig c = some globals) :
    Divisible c.maxKerWorker c.maxUsrWorker ∧
      ∀ key, globals.field key = c.field key := by
  unfold installConfig at hinstall
  split at hinstall
  next hdivisible =>
    cases hinstall
    refine ⟨hdivisible, ?_⟩
    intro key
    cases key <;> rfl
  next => simp at hinstall

/-- A configuration is installed on both sides as it is, if at all. -/
theorem setup_eq_some_iff {allocated : EscaConfig} {bytes : List UInt8}
    {values : ConfigKey → ℤ} :
    (∃ installed, setup allocated (some bytes) = some installed ∧
        installed.Holds values) ↔
      (∀ key, ((setupOptions bytes).foldl EscaConfig.applyOption
          allocated).field key = values key) ∧
        Divisible (values .maxKerWorker) (values .maxUsrWorker) := by
  generalize hconfig :
    (setupOptions bytes).foldl EscaConfig.applyOption allocated = config
  simp only [setup, initConfig, sysEscaInitConfig, hconfig]
  constructor
  · rintro ⟨installed, hsetup, hholds⟩
    cases hinstall : installConfig config with
    | none => simp [hinstall] at hsetup
    | some globals =>
        obtain ⟨hdivisible, hfields⟩ := installConfig_eq_some hinstall
        simp only [hinstall, Option.some.injEq] at hsetup
        subst hsetup
        have hvalues : ∀ key, config.field key = values key := by
          intro key
          rw [← hfields key]
          exact (hholds key).1
        refine ⟨hvalues, ?_⟩
        rw [← hvalues .maxKerWorker, ← hvalues .maxUsrWorker]
        exact hdivisible
  · rintro ⟨hvalues, hdivisible⟩
    rw [← hvalues .maxKerWorker, ← hvalues .maxUsrWorker] at hdivisible
    have hinstall : installConfig config = some _ := if_pos hdivisible
    have hfields := (installConfig_eq_some hinstall).2
    simp only [hinstall]
    refine ⟨_, rfl, ?_⟩
    intro key
    rw [← hvalues key]
    exact ⟨hfields key, hfields key⟩

/-! ## Well-formed files -/

def isBlank (byte : UInt8) : Bool :=
  isSpace byte && byte != newline

def configArgMaxBytes : ℕ := 128

/-- A line `key = value`; the key fits its buffer and the value an `int`. -/
structure OptionLine where
  indent : List UInt8
  key : List UInt8
  gap : List UInt8
  lead : List UInt8
  sign : Option UInt8
  digits : List UInt8
  trailing : List UInt8
  indent_blank : ∀ byte ∈ indent, isBlank byte = true
  key_word : ∀ byte ∈ key, isSpace byte = false
  key_ne_nil : key ≠ []
  key_short : key.length < configArgMaxBytes
  gap_blank : ∀ byte ∈ gap, isBlank byte = true
  gap_ne_nil : gap ≠ []
  lead_blank : ∀ byte ∈ lead, isBlank byte = true
  sign_sign : ∀ byte ∈ sign, isSign byte = true
  digits_digit : ∀ byte ∈ digits, isDigit byte = true
  digits_ne_nil : digits ≠ []
  trailing_blank : ∀ byte ∈ trailing, isBlank byte = true
  value_int : -2 ^ 31 ≤ signedValue sign digits ∧
    signedValue sign digits < 2 ^ 31

theorem isSpace_of_isBlank {bytes : List UInt8}
    (hblank : ∀ byte ∈ bytes, isBlank byte = true) :
    ∀ byte ∈ bytes, isSpace byte = true := by
  intro byte hmem
  exact (Bool.and_eq_true_iff.mp (hblank byte hmem)).1

namespace OptionLine

def bytes (line : OptionLine) : List UInt8 :=
  line.indent ++ (line.key ++ (line.gap ++ 61 :: (line.lead ++
    (line.sign.toList ++ (line.digits ++ line.trailing)))))

def option (line : OptionLine) : ConfigOption :=
  ⟨line.key, signedValue line.sign line.digits⟩

/-- One round reads the line up to its last digit. -/
theorem scan_bytes (line : OptionLine) {more : List UInt8}
    (hmore : ∀ byte ∈ more.head?, isSpace byte = true) :
    scan optionFormat (.ofBytes (line.bytes ++ more)) =
      ([.text line.key,
          .number (signedValue line.sign line.digits)],
        .looked (line.trailing ++ more)) := by
  generalize hend : line.trailing ++ more = rest
  have hstop : ∀ byte ∈ rest.head?, isSpace byte = true := by
    intro byte hbyte
    rw [← hend, List.head?_append, Option.mem_def,
      Option.or_eq_some_iff] at hbyte
    rcases hbyte with hblank | ⟨_, hhead⟩
    · exact isSpace_of_isBlank line.trailing_blank byte
        (List.mem_of_mem_head? hblank)
    · exact hmore byte hhead
  generalize hnumber :
    line.sign.toList ++ (line.digits ++ rest) = number
  have hword :
      Directive.string.read (.ofBytes (line.bytes ++ more)) =
        (some [.text line.key],
          .looked (line.gap ++ 61 :: (line.lead ++ number))) := by
    refine read_string_run ?_ (isSpace_of_isBlank line.indent_blank)
      line.key_word line.key_ne_nil ?_
    · simp [Stream.ofBytes, bytes, ← hnumber, ← hend]
    · rw [List.head?_append_of_ne_nil _ line.gap_ne_nil]
      intro byte hbyte
      exact isSpace_of_isBlank line.gap_blank byte
        (List.mem_of_mem_head? hbyte)
  have hgap :
      (Stream.looked (line.gap ++ 61 :: (line.lead ++ number))).skipSpace =
        .looked (61 :: (line.lead ++ number)) :=
    skipSpace_run rfl (isSpace_of_isBlank line.gap_blank)
      (by simp [isSpace])
  have hequals :
      (Directive.literal 61).read (.looked (61 :: (line.lead ++ number))) =
        (some [], .ofBytes (line.lead ++ number)) :=
    read_literal_run rfl
  have hlead : (Stream.ofBytes (line.lead ++ number)).skipSpace =
      .looked number := by
    apply skipSpace_run rfl (isSpace_of_isBlank line.lead_blank)
    rw [← hnumber]
    exact head_number line.sign_sign line.digits_digit
      line.digits_ne_nil
  have hvalue : Directive.decimal.read (.looked number) =
      (some [.number (signedValue line.sign line.digits)],
        .looked rest) := by
    refine read_decimal_run hnumber.symm line.sign_sign line.digits_digit
      line.digits_ne_nil ?_
    intro byte hbyte
    by_contra hdigit
    have hspace := (isDigit_facts (by simpa using hdigit)).1
    rw [hstop byte hbyte] at hspace
    contradiction
  simp only [optionFormat, scan, hword, read_space, hgap, hequals, hlead,
    hvalue, List.append_nil, List.nil_append, List.singleton_append]

end OptionLine

inductive ConfigLine
  | blank (spaces : List UInt8)
      (hblank : ∀ byte ∈ spaces, isBlank byte = true)
  | option (line : OptionLine)

namespace ConfigLine

def bytes : ConfigLine → List UInt8
  | .blank spaces _ => spaces
  | .option line => line.bytes

def options : ConfigLine → List ConfigOption
  | .blank _ _ => []
  | .option line => [line.option]

/-- The options of a line, and then those of the following lines. -/
theorem setupOptions_bytes (line : ConfigLine) {more : List UInt8}
    (hmore : ∀ byte ∈ more.head?, isSpace byte = true) :
    setupOptions (line.bytes ++ more) =
      line.options ++ setupOptions more := by
  cases line with
  | blank spaces hblank =>
      exact optionsFrom_of_skipSpace
        (skipSpace_ofBytes_append (isSpace_of_isBlank hblank) more)
  | option line =>
      have hlater : optionsFrom (.looked (line.trailing ++ more)) =
          setupOptions more := by
        apply optionsFrom_of_skipSpace
        exact skipSpace_ofBytes_append
          (isSpace_of_isBlank line.trailing_blank) more
      have hround : setupOptions (line.bytes ++ more) =
          line.option :: optionsFrom (.looked (line.trailing ++ more)) := by
        unfold setupOptions
        rw [optionsFrom_eq, line.scan_bytes hmore]
        rfl
      change setupOptions (line.bytes ++ more) = _
      rw [hround, hlater]
      rfl

end ConfigLine

/-- Lines that end in a newline and a last one that does not; a file that ends
in a newline has an empty last line. -/
structure ConfigFile where
  lines : List ConfigLine
  last : ConfigLine

namespace ConfigFile

def bytes (file : ConfigFile) : List UInt8 :=
  (file.lines.flatMap fun line => line.bytes ++ [newline]) ++
    file.last.bytes

def options (file : ConfigFile) : List ConfigOption :=
  file.lines.flatMap ConfigLine.options ++ file.last.options

/-- The reader finds the options of a well-formed file. -/
theorem setupOptions_bytes (file : ConfigFile) :
    setupOptions file.bytes = file.options := by
  obtain ⟨lines, last⟩ := file
  simp only [bytes, options]
  induction lines with
  | nil =>
      have hlast : setupOptions (last.bytes ++ []) =
          last.options ++ setupOptions [] :=
        last.setupOptions_bytes (by simp)
      simpa [setupOptions_nil] using hlast
  | cons line lines ih =>
      rw [List.flatMap_cons, List.append_assoc, List.append_assoc,
        line.setupOptions_bytes (by simp [isSpace, newline]),
        List.flatMap_cons, List.append_assoc, ← ih]
      congr 1
      exact optionsFrom_of_skipSpace
        (skipSpace_ofBytes_append (by simp [isSpace, newline]) _)

/-- What the file says about the key, or else its default. -/
def value (file : ConfigFile) (key : ConfigKey) : ℤ :=
  (lastAssigned file.options key).getD (defaultConfig.field key)

def Names (file : ConfigFile) (key : ConfigKey) : Prop :=
  ∃ option ∈ file.options, option.Names key

end ConfigFile

/-- The seven values of a well-formed file are installed whatever the
allocated memory holds exactly if the file names every key and its two worker
numbers can be divided. -/
theorem setup_installs_file_iff (file : ConfigFile) :
    (∀ allocated, ∃ installed,
      setup allocated (some file.bytes) = some installed ∧
        installed.Holds file.value) ↔
      (∀ key, file.Names key) ∧
        Divisible (file.value .maxKerWorker)
          (file.value .maxUsrWorker) := by
  simp only [setup_eq_some_iff, file.setupOptions_bytes,
    EscaConfig.field_foldl_applyOption]
  constructor
  · intro hinstalls
    refine ⟨?_, (hinstalls defaultConfig).2⟩
    intro key
    by_contra hnot
    -- memory that holds another value than the default
    obtain ⟨hvalues, _⟩ := hinstalls
      (defaultConfig.store key (defaultConfig.field key + 1))
    have hnone : lastAssigned file.options key = none := by
      rw [lastAssigned_eq_none_iff]
      intro option hmem hnames
      exact hnot ⟨option, hmem, hnames⟩
    have hkey := hvalues key
    rw [ConfigFile.value, hnone, EscaConfig.field_store, if_pos rfl]
      at hkey
    simp at hkey
  · rintro ⟨hnamed, hdivisible⟩ allocated
    refine ⟨?_, hdivisible⟩
    intro key
    cases hlast : lastAssigned file.options key with
    | none =>
        obtain ⟨option, hmem, hnames⟩ := hnamed key
        exact absurd hnames
          (lastAssigned_eq_none_iff.mp hlast option hmem)
    | some val =>
        rw [ConfigFile.value, hlast]
        rfl

/-- `max_table_len = 3` and nothing else. -/
def lengthOnly : ConfigFile where
  lines := []
  last := .option {
    indent := []
    key := ascii "max_table_len"
    gap := [32]
    lead := [32]
    sign := none
    digits := [51]
    trailing := []
    indent_blank := by simp
    key_word := by
      have hnone : (ascii "max_table_len").any isSpace = false := rfl
      intro byte hmem
      exact Bool.eq_false_of_not_eq_true
        (List.any_eq_false.mp hnone byte hmem)
    key_ne_nil := by decide
    key_short := by decide
    gap_blank := List.all_eq_true.mp rfl
    gap_ne_nil := by decide
    lead_blank := List.all_eq_true.mp rfl
    sign_sign := by simp
    digits_digit := List.all_eq_true.mp rfl
    digits_ne_nil := by decide
    trailing_blank := by simp
    value_int := by decide }

def filledWith (value : ℤ) : EscaConfig :=
  ⟨value, value, value, value, value, value, value⟩

/-- The number of table entries is what the memory held, not the default. -/
theorem lengthOnly_installs_memory :
    ∃ first second,
      setup (filledWith 1) (some lengthOnly.bytes) = some first ∧
      setup (filledWith 2) (some lengthOnly.bytes) = some second ∧
      first.kernel.maxTableEntry = 1 ∧
      second.kernel.maxTableEntry = 2 ∧
      lengthOnly.value .maxTableEntry = 64 ∧
      ¬ first.Holds lengthOnly.value ∧
      ¬ second.Holds lengthOnly.value := by
  refine ⟨_, _, rfl, rfl, rfl, rfl, by decide, ?_, ?_⟩
  · intro hholds
    exact absurd (hholds .maxTableEntry).2 (by decide)
  · intro hholds
    exact absurd (hholds .maxTableEntry).2 (by decide)

end Saio
