import Saio.CircularSlots
import Mathlib.Tactic

/-!
# The table shared by a user thread and its kernel worker

This file embeds the data of `esca.h` that the ring protocol reads and writes,
together with the straight-line code on it: filling an entry, the register
switch of `indirect_call`, the tail step of `update_index`, the cursor step of
`worker`, and the batch size `worker` computes from a tail snapshot.

The entries lie in the pages that both sides share.  The kernel starts a page
with each of its `tables`, the wrappers count the entries of all their
`user_tables` from the start of the first page, so that the same pair of
indices may denote two entries; `SharesEntries` says when it denotes one.

The fields `pid` and `sysret` are written but never read and are left out.
The positions are natural numbers below `MAX_TABLE_LEN` and
`MAX_TABLE_ENTRY`.  `esca.h` declares them `short`, which is the same as long
as neither size is above 32768; the limits of `esca.h` are 30 and 64.  The
counter `submitted` is a `short` as well and keeps its wrap-around.
-/

namespace Saio

open CircularSlots

/-- `BENTRY_EMPTY` and `BENTRY_BUSY`. -/
inductive EntryStatus
  | empty
  | busy
  deriving DecidableEq, Repr

/-- A system call: its number and at most six arguments. -/
structure SysCall where
  sysnum : ℕ
  args : List ℤ
  args_le : args.length ≤ 6
  deriving DecidableEq

theorem SysCall.singleton_le (arg : ℤ) : [arg].length ≤ 6 := by
  simp

/-- One `esca_table_entry_t`. -/
structure TableEntry where
  nargs : ℕ
  rstatus : EntryStatus
  sysnum : ℕ
  args : Fin 6 → ℤ

/-- The argument registers of `struct pt_regs`, in argument order. -/
structure PtRegs where
  di : ℤ := 0
  si : ℤ := 0
  dx : ℤ := 0
  r10 : ℤ := 0
  r8 : ℤ := 0
  r9 : ℤ := 0

def PtRegs.toList (regs : PtRegs) : List ℤ :=
  [regs.di, regs.si, regs.dx, regs.r10, regs.r8, regs.r9]

/-- The `switch (argc)` of `indirect_call`, whose cases fall through. -/
def loadRegs (argc : ℕ) (a : Fin 6 → ℤ) : PtRegs :=
  match argc with
  | 6 => { di := a 0, si := a 1, dx := a 2, r10 := a 3, r8 := a 4, r9 := a 5 }
  | 5 => { di := a 0, si := a 1, dx := a 2, r10 := a 3, r8 := a 4 }
  | 4 => { di := a 0, si := a 1, dx := a 2, r10 := a 3 }
  | 3 => { di := a 0, si := a 1, dx := a 2 }
  | 2 => { di := a 0, si := a 1 }
  | 1 => { di := a 0 }
  | _ => {}

/-- The call made through `syscall_table_ptr`: the system call reads its
arguments from the registers that were loaded. -/
def indirectCall (sysnum argc : ℕ) (a : Fin 6 → ℤ) : SysCall where
  sysnum := sysnum
  args := (loadRegs argc a).toList.take argc
  args_le := by
    rw [List.length_take]
    exact Nat.min_le_right _ _

def TableEntry.call (entry : TableEntry) : SysCall :=
  indirectCall entry.sysnum entry.nargs entry.args

/-- What a wrapper writes into its slot before it calls `update_index`.
Arguments beyond the ones it sets keep their old value, and so does
`rstatus`. -/
def TableEntry.fill (entry : TableEntry) (call : SysCall) : TableEntry :=
  { entry with
    sysnum := call.sysnum
    nargs := call.args.length
    args := fun k => call.args.getD k.val (entry.args k) }

/-- Executing a filled entry makes exactly the call it was filled with. -/
theorem TableEntry.call_fill
    (entry : TableEntry) (call : SysCall) :
    (entry.fill call).call = call := by
  obtain ⟨sysnum, args, hargs⟩ := call
  rw [TableEntry.call, indirectCall, SysCall.mk.injEq]
  refine ⟨rfl, ?_⟩
  rcases args with _ | ⟨a, _ | ⟨b, _ | ⟨c, _ | ⟨d, _ | ⟨e, _ |
    ⟨f, _ | ⟨g, rest⟩⟩⟩⟩⟩⟩⟩
  all_goals first
    | rfl
    | (simp only [List.length_cons] at hargs; omega)

@[simp] theorem TableEntry.call_with_rstatus
    (entry : TableEntry) (status : EntryStatus) :
    ({ entry with rstatus := status } : TableEntry).call =
      entry.call := rfl

/-- The configured dimensions of a ring. -/
structure TableConfig where
  maxTableEntry : ℕ
  maxTableLen : ℕ
  entry_pos : 0 < maxTableEntry
  len_pos : 0 < maxTableLen

/-- Number of slots of a ring. -/
def TableConfig.capacity (cfg : TableConfig) : ℕ :=
  cfg.maxTableEntry * cfg.maxTableLen

/-- The slot of an absolute position in a ring of these dimensions. -/
def TableConfig.slotAt (cfg : TableConfig) (position : ℕ) : ℕ × ℕ :=
  CircularSlots.slotAt cfg.maxTableEntry cfg.maxTableLen position

theorem TableConfig.capacity_pos (cfg : TableConfig) : 0 < cfg.capacity :=
  Nat.mul_pos cfg.entry_pos cfg.len_pos

@[simp] theorem TableConfig.slotAt_zero (cfg : TableConfig) :
    cfg.slotAt 0 = (0, 0) := CircularSlots.slotAt_zero

theorem TableConfig.slotAt_injective
    (cfg : TableConfig) {first second : ℕ} (hle : first ≤ second)
    (hlap : second < first + cfg.capacity)
    (hslot : cfg.slotAt first = cfg.slotAt second) :
    first = second :=
  slotAt_injective_within_lap hle hlap hslot

theorem TableConfig.slotAt_ne
    (cfg : TableConfig) {first second : ℕ} (hlt : first < second)
    (hlap : second < first + cfg.capacity) :
    cfg.slotAt first ≠ cfg.slotAt second :=
  slotAt_ne_within_lap hlt hlap

theorem TableConfig.slotAt_add_capacity
    (cfg : TableConfig) (position : ℕ) :
    cfg.slotAt (position + cfg.capacity) = cfg.slotAt position :=
  slotAt_add_lap cfg.entry_pos position

/-! ## The two arrays over the shared pages -/

/-- `getpagesize()`. -/
def pageSize : ℕ := 4096

/-- The fields of an `esca_table_entry_t`, in bytes. -/
def entrySize : ℕ := 4 + 2 + 2 + 4 + 4 + 6 * 8

def entriesPerPage : ℕ := pageSize / entrySize

/-- The place of `user_tables[i][j]`: its page and its number in it.  The
place of `tables[i][j]` is `(i, j)` itself. -/
def TableConfig.userSlot (cfg : TableConfig) (slot : ℕ × ℕ) : ℕ × ℕ :=
  (flatIndex cfg.maxTableEntry slot / entriesPerPage,
    flatIndex cfg.maxTableEntry slot % entriesPerPage)

/-- A table fills its page, or is the only one and fits into its page. -/
def TableConfig.SharesEntries (cfg : TableConfig) : Prop :=
  cfg.maxTableEntry = entriesPerPage ∨
    cfg.maxTableLen = 1 ∧ cfg.maxTableEntry ≤ entriesPerPage

instance (cfg : TableConfig) : Decidable cfg.SharesEntries :=
  inferInstanceAs (Decidable (_ ∨ _ ∧ _))

theorem TableConfig.userSlot_of_fills
    {cfg : TableConfig} (hfills : cfg.maxTableEntry = entriesPerPage)
    {slot : ℕ × ℕ} (hentry : slot.2 < cfg.maxTableEntry) :
    cfg.userSlot slot = slot := by
  unfold userSlot flatIndex
  rw [hfills] at hentry ⊢
  rw [Nat.mul_comm, Nat.mul_add_div (Nat.zero_lt_of_lt hentry),
    Nat.mul_add_mod, Nat.div_eq_of_lt hentry, Nat.mod_eq_of_lt hentry,
    Nat.add_zero]

theorem TableConfig.userSlot_of_first
    {cfg : TableConfig} {j : ℕ} (hj : j < entriesPerPage) :
    cfg.userSlot (0, j) = (0, j) := by
  unfold userSlot flatIndex
  rw [Nat.zero_mul, Nat.zero_add, Nat.div_eq_of_lt hj,
    Nat.mod_eq_of_lt hj]

/-- With shared entries the wrappers and the worker mean the same entry by the
slot of a position. -/
theorem TableConfig.SharesEntries.userSlot_slotAt
    {cfg : TableConfig} (hshares : cfg.SharesEntries) (position : ℕ) :
    cfg.userSlot (cfg.slotAt position) = cfg.slotAt position := by
  have hentry : (cfg.slotAt position).2 < cfg.maxTableEntry :=
    slotAt_snd_lt cfg.entry_pos position
  rcases hshares with hfills | ⟨hsingle, hfits⟩
  · exact userSlot_of_fills hfills hentry
  · have htable : (cfg.slotAt position).1 = 0 := by
      have hlt : (cfg.slotAt position).1 < cfg.maxTableLen :=
        slotAt_fst_lt cfg.len_pos position
      omega
    rw [show cfg.slotAt position = (0, (cfg.slotAt position).2) from
      Prod.ext htable rfl]
    exact userSlot_of_first (hentry.trans_le hfits)

/-- The part of `esca_table_t` the ring protocol uses; `pages` holds the
entries by their places. -/
structure EscaTable where
  pages : ℕ → ℕ → TableEntry
  headTable : ℕ
  tailTable : ℕ
  headEntry : ℕ
  tailEntry : ℕ

namespace EscaTable

def head (table : EscaTable) : ℕ × ℕ :=
  (table.headTable, table.headEntry)

def tail (table : EscaTable) : ℕ × ℕ :=
  (table.tailTable, table.tailEntry)

/-- `tables[i][j]`. -/
def entryAt (table : EscaTable) (slot : ℕ × ℕ) : TableEntry :=
  table.pages slot.1 slot.2

/-- `user_tables[i][j]`. -/
def userEntryAt (cfg : TableConfig) (table : EscaTable) (slot : ℕ × ℕ) :
    TableEntry :=
  table.entryAt (cfg.userSlot slot)

/-- Overwrite the entry at one place. -/
def setEntry
    (table : EscaTable) (slot : ℕ × ℕ) (entry : TableEntry) : EscaTable :=
  { table with
    pages := fun i j =>
      if (i, j) = slot then entry else table.pages i j }

@[simp] theorem setEntry_head
    (table : EscaTable) (slot : ℕ × ℕ) (entry : TableEntry) :
    (table.setEntry slot entry).head = table.head := rfl

@[simp] theorem entryAt_setEntry_self
    (table : EscaTable) (slot : ℕ × ℕ) (entry : TableEntry) :
    (table.setEntry slot entry).entryAt slot = entry := by
  simp [entryAt, setEntry]

theorem entryAt_setEntry_of_ne
    (table : EscaTable) {slot other : ℕ × ℕ} (entry : TableEntry)
    (hne : other ≠ slot) :
    (table.setEntry slot entry).entryAt other = table.entryAt other := by
  simp [entryAt, setEntry, hne]

/-- Store into the `rstatus` field of one entry. -/
def setStatus
    (table : EscaTable) (slot : ℕ × ℕ) (status : EntryStatus) :
    EscaTable :=
  table.setEntry slot { table.entryAt slot with rstatus := status }

@[simp] theorem setStatus_head
    (table : EscaTable) (slot : ℕ × ℕ) (status : EntryStatus) :
    (table.setStatus slot status).head = table.head := rfl

@[simp] theorem setStatus_call
    (table : EscaTable) (slot other : ℕ × ℕ) (status : EntryStatus) :
    ((table.setStatus slot status).entryAt other).call =
      (table.entryAt other).call := by
  by_cases hslot : other = slot
  · subst other
    simp [setStatus]
  · rw [setStatus, entryAt_setEntry_of_ne table _ hslot]

@[simp] theorem setStatus_rstatus_self
    (table : EscaTable) (slot : ℕ × ℕ) (status : EntryStatus) :
    ((table.setStatus slot status).entryAt slot).rstatus = status := by
  simp [setStatus]

theorem setStatus_rstatus_of_ne
    (table : EscaTable) {slot other : ℕ × ℕ} (status : EntryStatus)
    (hne : other ≠ slot) :
    ((table.setStatus slot status).entryAt other).rstatus =
      (table.entryAt other).rstatus := by
  rw [setStatus, entryAt_setEntry_of_ne table _ hne]

/-- A wrapped call fills `user_tables[i][j]`. -/
def fillUser (cfg : TableConfig) (table : EscaTable) (slot : ℕ × ℕ)
    (call : SysCall) : EscaTable :=
  table.setEntry (cfg.userSlot slot)
    ((table.userEntryAt cfg slot).fill call)

/-- The release store of `BENTRY_BUSY` into `user_tables[i][j]`. -/
def markUser (cfg : TableConfig) (table : EscaTable) (slot : ℕ × ℕ) :
    EscaTable :=
  table.setStatus (cfg.userSlot slot) .busy

@[simp] theorem fillUser_call_self
    (cfg : TableConfig) (table : EscaTable) (slot : ℕ × ℕ)
    (call : SysCall) :
    ((table.fillUser cfg slot call).userEntryAt cfg slot).call = call := by
  rw [userEntryAt, fillUser, entryAt_setEntry_self]
  exact TableEntry.call_fill _ call

theorem fillUser_of_ne
    {cfg : TableConfig} (table : EscaTable) {slot other : ℕ × ℕ}
    (call : SysCall) (hne : other ≠ cfg.userSlot slot) :
    (table.fillUser cfg slot call).entryAt other = table.entryAt other :=
  entryAt_setEntry_of_ne table _ hne

@[simp] theorem fillUser_rstatus
    (cfg : TableConfig) (table : EscaTable) (slot other : ℕ × ℕ)
    (call : SysCall) :
    ((table.fillUser cfg slot call).entryAt other).rstatus =
      (table.entryAt other).rstatus := by
  by_cases hslot : other = cfg.userSlot slot
  · rw [hslot, fillUser, entryAt_setEntry_self]
    rfl
  · rw [fillUser_of_ne table call hslot]

@[simp] theorem markUser_call
    (cfg : TableConfig) (table : EscaTable) (slot other : ℕ × ℕ) :
    ((table.markUser cfg slot).entryAt other).call =
      (table.entryAt other).call :=
  setStatus_call table _ other .busy

@[simp] theorem markUser_rstatus_self
    (cfg : TableConfig) (table : EscaTable) (slot : ℕ × ℕ) :
    ((table.markUser cfg slot).userEntryAt cfg slot).rstatus = .busy :=
  setStatus_rstatus_self table _ .busy

theorem markUser_rstatus_of_ne
    {cfg : TableConfig} (table : EscaTable) {slot other : ℕ × ℕ}
    (hne : other ≠ cfg.userSlot slot) :
    ((table.markUser cfg slot).entryAt other).rstatus =
      (table.entryAt other).rstatus :=
  setStatus_rstatus_of_ne table .busy hne

/-- With shared entries the worker sees what the wrappers see. -/
theorem userEntryAt_slotAt
    {cfg : TableConfig} (hshares : cfg.SharesEntries)
    (table : EscaTable) (position : ℕ) :
    table.userEntryAt cfg (cfg.slotAt position) =
      table.entryAt (cfg.slotAt position) := by
  rw [userEntryAt, hshares.userSlot_slotAt]

/-- The condition on which `update_index` spins. -/
def SpinsFull (table : EscaTable) : Prop :=
  table.tailEntry + 1 = table.headEntry ∧
    table.tailTable = table.headTable

instance (table : EscaTable) : Decidable table.SpinsFull :=
  inferInstanceAs (Decidable (_ ∧ _))

/-- The tail step of `update_index`, once its spin is over. -/
def updateIndex (cfg : TableConfig) (table : EscaTable) : EscaTable :=
  if table.tailEntry = cfg.maxTableEntry - 1 then
    { table with
      tailEntry := 0
      tailTable :=
        if table.tailTable = cfg.maxTableLen - 1 then 0
        else table.tailTable + 1 }
  else
    { table with tailEntry := table.tailEntry + 1 }

@[simp] theorem updateIndex_entryAt
    (cfg : TableConfig) (table : EscaTable) (slot : ℕ × ℕ) :
    (table.updateIndex cfg).entryAt slot = table.entryAt slot := by
  unfold updateIndex
  split <;> rfl

@[simp] theorem updateIndex_head
    (cfg : TableConfig) (table : EscaTable) :
    (table.updateIndex cfg).head = table.head := by
  unfold updateIndex
  split <;> rfl

theorem updateIndex_tail (cfg : TableConfig) (table : EscaTable) :
    (table.updateIndex cfg).tail =
      successor cfg.maxTableEntry cfg.maxTableLen table.tail := by
  by_cases hlast : table.tailEntry = cfg.maxTableEntry - 1
  · have hslot : table.tail.2 = cfg.maxTableEntry - 1 := hlast
    rw [successor_of_last hslot, updateIndex, if_pos hlast]
    rfl
  · have hslot : table.tail.2 ≠ cfg.maxTableEntry - 1 := hlast
    rw [successor_of_not_last hslot, updateIndex, if_neg hlast]
    rfl

theorem updateIndex_tail_of_slotAt
    {cfg : TableConfig} {table : EscaTable} {position : ℕ}
    (htail : table.tail = cfg.slotAt position) :
    (table.updateIndex cfg).tail = cfg.slotAt (position + 1) := by
  rw [updateIndex_tail, htail]
  exact successor_slotAt cfg.entry_pos cfg.len_pos position

end EscaTable

/-- The cursor step of the batch loop in `worker`. -/
def advanceCursor (cfg : TableConfig) (i j : ℕ) : ℕ × ℕ :=
  if j = cfg.maxTableEntry - 1 then
    (if i = cfg.maxTableLen - 1 then 0 else i + 1, 0)
  else
    (i, j + 1)

theorem advanceCursor_eq_successor (cfg : TableConfig) (i j : ℕ) :
    advanceCursor cfg i j =
      successor cfg.maxTableEntry cfg.maxTableLen (i, j) := rfl

theorem advanceCursor_of_slotAt
    {cfg : TableConfig} {i j position : ℕ}
    (hcursor : (i, j) = cfg.slotAt position) :
    advanceCursor cfg i j = cfg.slotAt (position + 1) := by
  rw [advanceCursor_eq_successor, hcursor]
  exact successor_slotAt cfg.entry_pos cfg.len_pos position

/-- Conversion to a 16-bit `short`. -/
def toShort (value : ℤ) : ℤ :=
  Int.bmod value 65536

@[simp] theorem toShort_zero : toShort 0 = 0 := rfl

theorem toShort_sub_one (value : ℤ) :
    toShort (toShort value - 1) = toShort (value - 1) :=
  Int.bmod_sub_bmod

/-- One turn of the batch loop on a counter that has not reached zero. -/
theorem toShort_pred {submitted : ℤ} {remaining : ℕ}
    (hvalue : submitted = toShort remaining) (hne : submitted ≠ 0) :
    ∃ rest : ℕ, remaining = rest + 1 ∧
      toShort (submitted - 1) = toShort rest := by
  cases remaining with
  | zero =>
      rw [hvalue] at hne
      exact absurd toShort_zero hne
  | succ rest =>
      refine ⟨rest, rfl, ?_⟩
      rw [hvalue, toShort_sub_one]
      congr 1
      push_cast
      ring

theorem toShort_le {value : ℤ} (hlow : 0 ≤ value) :
    toShort value ≤ value := by
  unfold toShort Int.bmod
  have hmod : value % 65536 ≤ value := by omega
  simp only
  split <;> omega

/-- The `int` that `worker` computes from its cursor and a tail snapshot,
before it is stored in `submitted`. -/
def batchCount
    (cfg : TableConfig) (i j tailTable tailEntry : ℕ) : ℤ :=
  let headIndex : ℤ := i * cfg.maxTableEntry + j
  let tailIndex : ℤ := tailTable * cfg.maxTableEntry + tailEntry
  if headIndex ≤ tailIndex then
    tailIndex - headIndex
  else
    cfg.maxTableEntry * cfg.maxTableLen - headIndex + tailIndex

/-- On a cursor and a tail less than a lap apart the batch is the pending
interval between them. -/
theorem batchCount_of_slotAt
    {cfg : TableConfig} {i j tailTable tailEntry cursor tail : ℕ}
    (hcursor : (i, j) = cfg.slotAt cursor)
    (htail : (tailTable, tailEntry) = cfg.slotAt tail)
    (hle : cursor ≤ tail) (hlap : tail < cursor + cfg.capacity) :
    batchCount cfg i j tailTable tailEntry = ((tail - cursor : ℕ) : ℤ) := by
  have hcursorIndex :
      i * cfg.maxTableEntry + j = cursor % cfg.capacity := by
    have h :=
      flatIndex_slotAt cfg.maxTableEntry cfg.maxTableLen cursor
    rw [show CircularSlots.slotAt _ _ cursor = (i, j) from hcursor.symm]
      at h
    exact h
  have htailIndex :
      tailTable * cfg.maxTableEntry + tailEntry = tail % cfg.capacity := by
    have h :=
      flatIndex_slotAt cfg.maxTableEntry cfg.maxTableLen tail
    rw [show CircularSlots.slotAt _ _ tail = (tailTable, tailEntry)
      from htail.symm] at h
    exact h
  have hdistance := distance_eq_sub hle hlap
  have hbound := Nat.mod_lt cursor cfg.capacity_pos
  have hlapEq : cfg.maxTableEntry * cfg.maxTableLen = cfg.capacity := rfl
  unfold batchCount
  zify at hcursorIndex htailIndex hlapEq
  simp only [hcursorIndex, htailIndex, hlapEq]
  rw [← hdistance]
  split_ifs <;> omega

end Saio
