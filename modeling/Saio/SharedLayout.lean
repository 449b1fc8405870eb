import Saio.SystemModel
import Mathlib.Tactic

/-!
# Where the shared tables and headers lie

`init_worker` allocates one page for the headers of its set and whole pages
for the tables of each ring; `sys_esca_register` pins these pages and maps
them into the kernel.  The user side finds `user_tables[i]` by counting
entries from the start of the allocation, the kernel side takes page `i`.

Byte for byte `user_tables[i][j]` is the entry that the kernel finds at the
place `userSlot` of `(i, j)`.  The two sides denote the same bytes exactly when
a table fills its page or there is only one table, and the headers of the set
fit into their page when there are at most eight.
-/

namespace Saio

def tableLenLimit : ℕ := 30

def tableEntLimit : ℕ := 64

/-- The fields of an `esca_table_t`, in bytes. -/
def headerSize : ℕ :=
  tableLenLimit * 8 + tableLenLimit * 8 + 4 * 2 + 4 + 4

/-- A byte of physical memory: a page frame and an offset into it. -/
structure PhysByte where
  frame : ℕ
  offset : ℕ
  deriving DecidableEq

/-- The page table of a process, and the blocks that `aligned_alloc` returned
for the headers of a set and for the tables of its rings. -/
structure SetMemory where
  frameOf : ℕ → ℕ
  frameOf_injective : Function.Injective frameOf
  header : ℕ
  header_aligned : pageSize ∣ header
  alloc : ℕ → ℕ
  alloc_aligned : ∀ k, pageSize ∣ alloc k

/-- A byte at an offset from the address that `kmap` returned for a page; the
mapping ends with the page. -/
def kmapByte (page offset : ℕ) : Option PhysByte :=
  if offset < pageSize then some ⟨page, offset⟩ else none

namespace SetMemory

variable {cfg : SetConfig} {memory : SetMemory} {k i j b : ℕ}

def translate (memory : SetMemory) (address : ℕ) : PhysByte :=
  ⟨memory.frameOf (address / pageSize), address % pageSize⟩

def getUserPages (memory : SetMemory) (start count : ℕ) : List ℕ :=
  (List.range count).map fun n => memory.frameOf (start / pageSize + n)

def tablePinnedPages (cfg : SetConfig) (memory : SetMemory) (k : ℕ) :
    List ℕ :=
  memory.getUserPages (memory.alloc k) cfg.maxTableLen

def sharedInfoPinnedPages (memory : SetMemory) : List ℕ :=
  memory.getUserPages memory.header 1

/-- `alloc + i * MAX_TABLE_ENTRY`. -/
def userTables (cfg : SetConfig) (memory : SetMemory) (k i : ℕ) : ℕ :=
  memory.alloc k + i * cfg.maxTableEntry * entrySize

/-- Byte `b` of `table[k]->user_tables[i][j]`. -/
def userEntryByte (cfg : SetConfig) (memory : SetMemory)
    (k i j b : ℕ) : PhysByte :=
  memory.translate (memory.userTables cfg k i + (j * entrySize + b))

/-- Byte `b` of `table[k]->tables[i][j]`. -/
def kernelEntryByte (cfg : SetConfig) (memory : SetMemory)
    (k i j b : ℕ) : Option PhysByte :=
  match (memory.tablePinnedPages cfg k)[i]? with
  | none => none
  | some page => kmapByte page (j * entrySize + b)

def userHeader (memory : SetMemory) (k : ℕ) : ℕ :=
  memory.header + k * headerSize

/-- Byte `b` of `header + k`, as the kernel side has it. -/
def kernelHeaderByte (memory : SetMemory) (k b : ℕ) : Option PhysByte :=
  match memory.sharedInfoPinnedPages[0]? with
  | none => none
  | some page => kmapByte page (k * headerSize + b)

structure LayoutAgrees (cfg : SetConfig) (memory : SetMemory) :
    Prop where
  same_bytes : ∀ k < cfg.ratio, ∀ i < cfg.maxTableLen,
    ∀ j < cfg.maxTableEntry, ∀ b < entrySize,
      memory.kernelEntryByte cfg k i j b =
        some (memory.userEntryByte cfg k i j b)
  inside : ∀ k < cfg.ratio, ∀ i < cfg.maxTableLen,
    ∀ j < cfg.maxTableEntry, ∀ b < entrySize,
      (memory.userEntryByte cfg k i j b).frame ∈
        memory.tablePinnedPages cfg k
  disjoint : ∀ k < cfg.ratio, ∀ i < cfg.maxTableLen,
    ∀ j < cfg.maxTableEntry, ∀ m < cfg.maxTableLen,
      ∀ n < cfg.maxTableEntry, (i, j) ≠ (m, n) →
        ∀ b < entrySize, ∀ c < entrySize,
          memory.userEntryByte cfg k i j b ≠
            memory.userEntryByte cfg k m n c
  header_inside : ∀ k < cfg.ratio,
    memory.userHeader k + headerSize ≤ memory.header + pageSize
  header_same : ∀ k < cfg.ratio, ∀ b < headerSize,
    memory.kernelHeaderByte k b =
      some (memory.translate (memory.userHeader k + b))

/-! ## Addresses -/

theorem translate_injective (memory : SetMemory) :
    Function.Injective memory.translate := by
  intro first second hequal
  obtain ⟨hframe, hoffset⟩ := PhysByte.mk.inj hequal
  have hpage := memory.frameOf_injective hframe
  rw [← Nat.div_add_mod first pageSize, hpage, hoffset]
  exact Nat.div_add_mod second pageSize

theorem translate_aligned {base : ℕ} (haligned : pageSize ∣ base)
    (offset : ℕ) :
    memory.translate (base + offset) =
      ⟨memory.frameOf (base / pageSize + offset / pageSize),
        offset % pageSize⟩ := by
  obtain ⟨page, rfl⟩ := haligned
  have hpos : 0 < pageSize := by decide
  unfold translate
  rw [Nat.mul_add_div hpos, Nat.mul_add_mod,
    Nat.mul_div_cancel_left page hpos]

theorem getUserPages_getElem {start count n : ℕ} (hn : n < count) :
    (memory.getUserPages start count)[n]? =
      some (memory.frameOf (start / pageSize + n)) := by
  simp [getUserPages, hn]

/-- The bytes of `user_tables[i][j]` are those at its place in the pinned
pages. -/
theorem userEntryByte_eq (hb : b < entrySize) :
    memory.userEntryByte cfg k i j b =
      ⟨memory.frameOf
          (memory.alloc k / pageSize + (cfg.userSlot (i, j)).1),
        (cfg.userSlot (i, j)).2 * entrySize + b⟩ := by
  have hoffset : i * cfg.maxTableEntry * entrySize + (j * entrySize + b) =
      (i * cfg.maxTableEntry + j) * entrySize + b := by
    ring
  unfold userEntryByte userTables TableConfig.userSlot
  rw [Nat.add_assoc, translate_aligned (memory.alloc_aligned k), hoffset]
  simp only [CircularSlots.flatIndex, entriesPerPage, pageSize,
    entrySize] at hb ⊢
  congr 2 <;> omega

theorem kernelEntryByte_eq (hi : i < cfg.maxTableLen)
    (hbyte : j * entrySize + b < pageSize) :
    memory.kernelEntryByte cfg k i j b =
      some ⟨memory.frameOf (memory.alloc k / pageSize + i),
        j * entrySize + b⟩ := by
  unfold kernelEntryByte tablePinnedPages
  rw [getUserPages_getElem hi]
  exact if_pos hbyte

theorem entry_byte_lt (hentry : cfg.maxTableEntry ≤ tableEntLimit)
    (hj : j < cfg.maxTableEntry) (hb : b < entrySize) :
    j * entrySize + b < pageSize := by
  have hsizes : tableEntLimit * entrySize = pageSize := by decide
  have hslot : (j + 1) * entrySize ≤ tableEntLimit * entrySize :=
    Nat.mul_le_mul_right _ (by omega)
  rw [Nat.succ_mul] at hslot
  omega

/-- A table that fills its page, or the only table, starts with page `i`. -/
theorem userSlot_of_fills
    (hentry : cfg.maxTableEntry ≤ tableEntLimit)
    (hfills : cfg.maxTableEntry = tableEntLimit ∨ cfg.maxTableLen = 1)
    (hi : i < cfg.maxTableLen) (hj : j < cfg.maxTableEntry) :
    cfg.userSlot (i, j) = (i, j) := by
  rcases hfills with hfull | hsingle
  · exact TableConfig.userSlot_of_fills hfull hj
  · have hzero : i = 0 := by omega
    rw [hzero]
    exact TableConfig.userSlot_of_first (hj.trans_le hentry)

theorem userEntryByte_ne {m n c : ℕ}
    (hj : j < cfg.maxTableEntry) (hn : n < cfg.maxTableEntry)
    (hne : (i, j) ≠ (m, n)) (hb : b < entrySize) (hc : c < entrySize) :
    memory.userEntryByte cfg k i j b ≠
      memory.userEntryByte cfg k m n c := by
  intro hequal
  have haddress := memory.translate_injective hequal
  unfold userTables at haddress
  have hpos : 0 < entrySize := by decide
  have hslots :
      (i * cfg.maxTableEntry + j) * entrySize + b =
        (m * cfg.maxTableEntry + n) * entrySize + c := by
    rw [Nat.add_mul, Nat.add_mul]
    omega
  have hslot :
      i * cfg.maxTableEntry + j = m * cfg.maxTableEntry + n := by
    have hdiv := congrArg (· / entrySize) hslots
    simpa [Nat.mul_comm _ entrySize, Nat.mul_add_div hpos,
      Nat.div_eq_of_lt hb, Nat.div_eq_of_lt hc] using hdiv
  have htable : i = m := by
    have hdiv := congrArg (· / cfg.maxTableEntry) hslot
    simpa [Nat.mul_comm _ cfg.maxTableEntry,
      Nat.mul_add_div cfg.entry_pos, Nat.div_eq_of_lt hj,
      Nat.div_eq_of_lt hn] using hdiv
  subst m
  exact hne (by rw [Nat.add_left_cancel hslot])

theorem header_byte_eq
    (hinside : k * headerSize + headerSize ≤ pageSize)
    (hb : b < headerSize) :
    memory.kernelHeaderByte k b =
      some (memory.translate (memory.userHeader k + b)) := by
  have hbyte : k * headerSize + b < pageSize := by omega
  unfold kernelHeaderByte sharedInfoPinnedPages userHeader
  rw [getUserPages_getElem Nat.one_pos, Nat.add_assoc,
    translate_aligned memory.header_aligned, Nat.div_eq_of_lt hbyte,
    Nat.mod_eq_of_lt hbyte]
  exact if_pos hbyte

/-! ## Agreement -/

/-- The pointers of the two sides lead to the same bytes exactly if the entries
are shared. -/
theorem entryBytes_agree_iff (cfg : SetConfig) (memory : SetMemory)
    (k : ℕ) :
    (∀ i < cfg.maxTableLen, ∀ j < cfg.maxTableEntry, ∀ b < entrySize,
      memory.kernelEntryByte cfg k i j b =
        some (memory.userEntryByte cfg k i j b)) ↔
      cfg.SharesEntries := by
  constructor
  · intro hsame
    by_contra hnot
    simp only [TableConfig.SharesEntries, not_or, not_and,
      Nat.not_le] at hnot
    obtain ⟨hfills, hsingle⟩ := hnot
    rcases Nat.lt_or_ge entriesPerPage cfg.maxTableEntry with
      hlong | hshort
    · -- the kernel's mapping ends before the entry behind the page
      have hbyte := hsame 0 cfg.len_pos entriesPerPage hlong 0 (by decide)
      unfold kernelEntryByte tablePinnedPages at hbyte
      rw [getUserPages_getElem cfg.len_pos] at hbyte
      simp [kmapByte, entriesPerPage, entrySize, pageSize] at hbyte
    · have hsecond : 1 < cfg.maxTableLen := by
        have hpos := cfg.len_pos
        by_contra hone
        exact absurd (hsingle (by omega)) (Nat.not_lt.mpr hshort)
      have hbyte := hsame 1 hsecond 0 cfg.entry_pos 0 (by decide)
      rw [kernelEntryByte_eq hsecond (by decide),
        userEntryByte_eq (by decide), Option.some.injEq,
        PhysByte.mk.injEq] at hbyte
      have hpage := memory.frameOf_injective hbyte.1
      have hfirst : (cfg.userSlot (1, 0)).1 = 0 := by
        apply Nat.div_eq_of_lt
        change 1 * cfg.maxTableEntry + 0 < entriesPerPage
        omega
      omega
  · intro hshares i hi j hj b hb
    have hentry : cfg.maxTableEntry ≤ tableEntLimit := by
      rcases hshares with hfills | ⟨_, hfits⟩
      · exact hfills.le
      · exact hfits
    have hfills : cfg.maxTableEntry = tableEntLimit ∨
        cfg.maxTableLen = 1 := hshares.imp id And.left
    rw [userEntryByte_eq hb, userSlot_of_fills hentry hfills hi hj]
    exact kernelEntryByte_eq hi (entry_byte_lt hentry hj hb)

theorem layoutAgrees_of_fills
    (hentry : cfg.maxTableEntry ≤ tableEntLimit)
    (hfills : cfg.maxTableEntry = tableEntLimit ∨ cfg.maxTableLen = 1)
    (hratio : cfg.ratio ≤ 8) : memory.LayoutAgrees cfg := by
  have hheader : ∀ k < cfg.ratio,
      k * headerSize + headerSize ≤ pageSize := by
    intro k hk
    have hle : (k + 1) * headerSize ≤ 8 * headerSize :=
      Nat.mul_le_mul_right _ (by omega)
    rw [Nat.succ_mul] at hle
    exact hle.trans (by decide)
  have hshares : cfg.SharesEntries :=
    hfills.imp id fun hsingle => ⟨hsingle, hentry⟩
  constructor
  · exact fun k _ => (entryBytes_agree_iff cfg memory k).mpr hshares
  · intro k _ i hi j hj b hb
    rw [userEntryByte_eq hb, userSlot_of_fills hentry hfills hi hj]
    exact List.mem_map_of_mem (List.mem_range.mpr hi)
  · intro k _ i _ j hj m _ n hn hne b hb c hc
    exact userEntryByte_ne hj hn hne hb hc
  · intro k hk
    unfold userHeader
    have hinside := hheader k hk
    omega
  · intro k hk b hb
    exact header_byte_eq (hheader k hk) hb

theorem LayoutAgrees.fills (hagrees : memory.LayoutAgrees cfg) :
    cfg.maxTableEntry = tableEntLimit ∨ cfg.maxTableLen = 1 :=
  ((entryBytes_agree_iff cfg memory 0).mp
    (hagrees.same_bytes 0 cfg.ratio_pos)).imp id And.left

theorem LayoutAgrees.ratio_le (hagrees : memory.LayoutAgrees cfg) :
    cfg.ratio ≤ 8 := by
  by_contra hmany
  have hinside := hagrees.header_inside 8 (by omega)
  have hsizes : pageSize < 8 * headerSize + headerSize := by decide
  unfold userHeader at hinside
  omega

/-- User and kernel agree on the layout exactly if a table fills its page or
is the only one, and at most eight headers share the header page. -/
theorem layoutAgrees_iff (cfg : SetConfig) (memory : SetMemory)
    (hentry : cfg.maxTableEntry ≤ tableEntLimit) :
    memory.LayoutAgrees cfg ↔
      (cfg.maxTableEntry = tableEntLimit ∨ cfg.maxTableLen = 1) ∧
        cfg.ratio ≤ 8 := by
  constructor
  · intro hagrees
    exact ⟨hagrees.fills, hagrees.ratio_le⟩
  · rintro ⟨hfills, hratio⟩
    exact layoutAgrees_of_fills hentry hfills hratio

def flatMemory : SetMemory where
  frameOf := id
  frameOf_injective := Function.injective_id
  header := 0
  header_aligned := Dvd.intro 0 rfl
  alloc := fun k => pageSize * (1 + 30 * k)
  alloc_aligned := fun k => Nat.dvd_mul_right pageSize (1 + 30 * k)

/-- The dimensions of `default_config`. -/
def defaultTables : SetConfig where
  toTableConfig := defaultTable
  ratio := 1
  ratio_pos := Nat.one_pos
  thisWorkerId := 0

theorem defaultTables_layoutAgrees :
    flatMemory.LayoutAgrees defaultTables :=
  (layoutAgrees_iff defaultTables flatMemory (by decide)).mpr (by decide)

def twoShortTables : SetConfig where
  maxTableEntry := 2
  maxTableLen := 2
  entry_pos := Nat.two_pos
  len_pos := Nat.two_pos
  ratio := 1
  ratio_pos := Nat.one_pos
  thisWorkerId := 0

/-- The first entry of the second table is in the first page for the user and
in the second for the kernel. -/
theorem twoShortTables_disagree :
    flatMemory.userEntryByte twoShortTables 0 1 0 0 = ⟨1, 128⟩ ∧
      flatMemory.kernelEntryByte twoShortTables 0 1 0 0 =
        some ⟨2, 0⟩ ∧
      ¬ flatMemory.LayoutAgrees twoShortTables := by
  refine ⟨by decide, by decide, ?_⟩
  intro hagrees
  have hsame := hagrees.same_bytes 0 (by decide) 1 (by decide) 0
    (by decide) 0 (by decide)
  exact absurd hsame (by decide)

end SetMemory

end Saio
