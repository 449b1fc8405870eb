import Saio.CallHistory
import Saio.DescriptorOrder
import Saio.SharedLayout
import Saio.SendfileRange
import Mathlib.Tactic

/-!
# The offset cells of the lighttpd wrapper

The lighttpd wrapper copies the offset of a transfer into the cell of
`off_arr` that belongs to the slot of its entry, advances the caller's offset
at once, and queues the address of the cell.  A cell is written again only by
the next call on its slot and by the execution of its own entry.

On rings without overrun the slot of a pending entry is not filled again, so
the cell keeps its value until the worker has read it.  If the worker also
finds the entries where the wrapper fills them, the transfers are those of the
direct calls.
-/

namespace Saio

open FifoBank

def cpuNumLimit : ℕ := 100

/-- The address is that of an element of `off_arr`. -/
def InOffArr (offArr address : ℤ) : Prop :=
  offArr ≤ address ∧ address < offArr + 8 * (cpuNumLimit * offArrWidth)

instance (offArr address : ℤ) : Decidable (InOffArr offArr address) :=
  inferInstanceAs (Decidable (_ ∧ _))

/-- A call on a non-negative socket, with an offset outside the library. -/
def LightyCall.Valid (offArr : ℤ) : LightyCall → Prop
  | .shutdown fd _ => 0 ≤ fd
  | .sendfile64 outFd _ offset count =>
      0 ≤ outFd ∧ offset ≠ 0 ∧ ¬ InOffArr offArr offset ∧ 0 ≤ count

instance (offArr : ℤ) (source : LightyCall) :
    Decidable (source.Valid offArr) :=
  match source with
  | .shutdown fd _ => inferInstanceAs (Decidable (0 ≤ fd))
  | .sendfile64 _ _ _ _ => inferInstanceAs (Decidable (_ ∧ _))

structure FileRange where
  outFd : ℤ
  inFd : ℤ
  start : ℤ
  count : ℤ
  deriving DecidableEq

def FileRange.bytes (content : ℤ → ℤ → UInt8) (range : FileRange) :
    ℤ × List UInt8 :=
  (range.outFd, fileBytes content range.inFd range.start
    range.count.toNat)

def SysCall.offsetCell (entry : SysCall) : Option ℤ :=
  match entry.args with
  | [_, _, cell, _] => some cell
  | _ => none

def rangeRead (entry : SysCall) (memory : LightyMemory) :
    Option FileRange :=
  match entry.args with
  | [outFd, inFd, cell, count] => some ⟨outFd, inFd, memory cell, count⟩
  | _ => none

def rangeMeant (source : LightyCall) (memory : LightyMemory) :
    Option FileRange :=
  match source with
  | .shutdown _ _ => none
  | .sendfile64 outFd inFd offset count =>
      some ⟨outFd, inFd, memory offset, count⟩

/-- What the wrapper leaves of the memory of its caller. -/
def LightyCall.advanced (memory : LightyMemory) :
    LightyCall → LightyMemory
  | .shutdown _ _ => memory
  | .sendfile64 _ _ offset count =>
      storeOffset memory offset (memory offset + count)

def storeAt (value : ℤ × ℤ) (memory : LightyMemory) : LightyMemory :=
  storeOffset memory value.1 value.2

/-- The calls are valid and made inside a segment, and the application stores
outside the library. -/
def Process.Proper (offArr : ℤ)
    (proc : Process LightyCall LightyMemory) :
    ProcessAction LightyCall (ℤ × ℤ) → Prop
  | .library (.call source) =>
      proc.sys.inSegment = true ∧ source.Valid offArr
  | .store value => ¬ InOffArr offArr value.1
  | _ => True

instance (offArr : ℤ) (proc : Process LightyCall LightyMemory)
    (action : ProcessAction LightyCall (ℤ × ℤ)) :
    Decidable (proc.Proper offArr action) :=
  match action with
  | .library (.call _) => inferInstanceAs (Decidable (_ ∧ _))
  | .store _ => inferInstanceAs (Decidable (¬ _))
  | .library .batchStart | .library .batchFlush | .library .user
  | .library (.worker _ _ _) => inferInstanceAs (Decidable True)

/-- The same calls and stores with `real_sendfile` in place of the
wrapper. -/
def directStep (content : ℤ → ℤ → UInt8) (files : Files) :
    ProcessAction LightyCall (ℤ × ℤ) → Files
  | .library (.call (.sendfile64 outFd inFd offset count)) =>
      files.sysSendfile content outFd inFd offset count.toNat
  | .store value => files.assign value.1 value.2
  | _ => files

variable {cfg : SetConfig} {arch : Architecture} {offArr : ℤ}
  {access : FlagAccess} {content : ℤ → ℤ → UInt8}
  {memory : LightyMemory}
  {proc next final : Process LightyCall LightyMemory}

/-! ## The cells -/

/-- The worker's rings exist, and a table is within its limits. -/
structure SetConfig.WithinLimits (cfg : SetConfig) : Prop where
  entry_le : cfg.maxTableEntry ≤ tableEntLimit
  len_le : cfg.maxTableLen ≤ tableLenLimit
  rings_le : (cfg.thisWorkerId + 1) * cfg.ratio ≤ cpuNumLimit

def cellAt (cfg : SetConfig) (offArr k : ℤ) (n : ℕ) : ℤ :=
  offArrCell cfg.toTableConfig offArr k (cfg.slotAt n).1 (cfg.slotAt n).2

theorem cellAt_eq (k : ℤ) (n : ℕ) :
    cellAt cfg offArr k n =
      offArr + 8 * (k * offArrWidth + (n % cfg.capacity : ℕ)) := by
  have hflat :=
    CircularSlots.flatIndex_slotAt cfg.maxTableEntry cfg.maxTableLen n
  unfold CircularSlots.flatIndex at hflat
  unfold cellAt offArrCell TableConfig.slotAt TableConfig.capacity
  rw [hflat]

theorem SetConfig.WithinLimits.capacity_le (hlimits : cfg.WithinLimits) :
    cfg.capacity ≤ tableEntLimit * tableLenLimit :=
  Nat.mul_le_mul hlimits.entry_le hlimits.len_le

/-- Every ring of the set has a place in the arrays. -/
theorem Deployment.ring_lt {κ μ : Type} (dep : Deployment κ μ)
    (hrings : (dep.thisWorkerId + 1) * dep.ratio ≤ cpuNumLimit)
    {k : ℤ} (hset : dep.InSet k) : 0 ≤ k ∧ k < cpuNumLimit := by
  obtain ⟨hlow, hhigh⟩ := hset
  have hnonneg : 0 ≤ dep.firstRing := by
    unfold Deployment.firstRing
    positivity
  have hcast : (((dep.thisWorkerId + 1) * dep.ratio : ℕ) : ℤ) ≤
      cpuNumLimit := by exact_mod_cast hrings
  have hend : dep.firstRing + dep.ratio ≤ (cpuNumLimit : ℤ) := by
    unfold Deployment.firstRing
    push_cast at hcast
    linarith
  constructor
  · omega
  · omega

theorem SetConfig.WithinLimits.ring_lt {κ μ : Type}
    {dep : Deployment κ μ} (hlimits : dep.toSetConfig.WithinLimits)
    {k : ℤ} (hset : dep.InSet k) : 0 ≤ k ∧ k < cpuNumLimit :=
  dep.ring_lt hlimits.rings_le hset

theorem SetConfig.WithinLimits.column_lt (hlimits : cfg.WithinLimits)
    (n : ℕ) : n % cfg.capacity < offArrWidth := by
  have hmod := Nat.mod_lt n cfg.capacity_pos
  have hcapacity := hlimits.capacity_le
  have hwidth : tableEntLimit * tableLenLimit < offArrWidth := by decide
  omega

theorem cellAt_inOffArr (hlimits : cfg.WithinLimits) {k : ℤ} {n : ℕ}
    (hk : (cfg.lighty arch offArr).InSet k) :
    InOffArr offArr (cellAt cfg offArr k n) := by
  have hcolumn := hlimits.column_lt n
  have hwidth : offArrWidth = 1921 := rfl
  have hlast : 0 ≤ k ∧ k < cpuNumLimit := hlimits.ring_lt hk
  rw [cellAt_eq]
  unfold InOffArr
  rw [hwidth] at hcolumn ⊢
  unfold cpuNumLimit at hlast ⊢
  push_cast at hlast ⊢
  constructor <;> omega

theorem cellAt_ne (hlimits : cfg.WithinLimits) {k m : ℤ} {n p : ℕ}
    (hne : k ≠ m ∨
      n ≠ p ∧ n < p + cfg.capacity ∧ p < n + cfg.capacity) :
    cellAt cfg offArr k n ≠ cellAt cfg offArr m p := by
  have hfirst := hlimits.column_lt n
  have hsecond := hlimits.column_lt p
  have hwidth : offArrWidth = 1921 := rfl
  intro hequal
  rw [cellAt_eq, cellAt_eq] at hequal
  rw [hwidth] at hfirst hsecond hequal
  have hk : k = m := by omega
  have hcolumn : n % cfg.capacity = p % cfg.capacity := by
    subst m
    omega
  rcases hne with hrings | ⟨hn, hbelow, habove⟩
  · exact hrings hk
  · rcases Nat.lt_or_ge n p with hlt | hge
    · have hdvd := (Nat.modEq_iff_dvd' hlt.le).mp hcolumn
      have hzero := Nat.eq_zero_of_dvd_of_lt hdvd (by omega)
      omega
    · have hdvd := (Nat.modEq_iff_dvd' hge).mp hcolumn.symm
      have hzero := Nat.eq_zero_of_dvd_of_lt hdvd (by omega)
      omega

theorem rangeRead_congr {entry : SysCall} {other : LightyMemory}
    (hsame : ∀ cell ∈ entry.offsetCell, other cell = memory cell) :
    rangeRead entry other = rangeRead entry memory := by
  unfold rangeRead
  unfold SysCall.offsetCell at hsame
  split
  next outFd inFd cell count hargs =>
    rw [hargs] at hsame
    rw [hsame cell rfl]
  next => rfl

theorem storeOffset_of_ne {address other value : ℤ}
    (hne : other ≠ address) :
    storeOffset memory address value other = memory other :=
  if_neg hne

theorem storeOffset_self {address value : ℤ} :
    storeOffset memory address value address = value :=
  if_pos rfl

theorem lighty_perform_eq (entry : SysCall) (sysret : ℤ) :
    (lighty arch offArr).perform entry sysret memory =
      match entry.offsetCell with
      | none => memory
      | some cell =>
          if 0 < sysret then storeOffset memory cell (memory cell + sysret)
          else memory := by
  unfold lighty SysCall.offsetCell
  dsimp only
  rcases entry.args with
    _ | ⟨outFd, _ | ⟨inFd, _ | ⟨cell, _ | ⟨count, _ | ⟨more, rest⟩⟩⟩⟩⟩ <;>
    rfl

theorem lighty_perform_of_ne {entry : SysCall} {sysret address : ℤ}
    (hne : ∀ cell ∈ entry.offsetCell, address ≠ cell) :
    (lighty arch offArr).perform entry sysret memory address =
      memory address := by
  rw [lighty_perform_eq]
  cases hcell : entry.offsetCell with
  | none => rfl
  | some cell =>
      dsimp only
      split
      next => exact storeOffset_of_ne (hne cell hcell)
      next => rfl

/-! ## The cells of pending calls -/

structure OffsetsKept (cfg : SetConfig) (arch : Architecture)
    (offArr : ℤ) (proc : Process LightyCall LightyMemory) : Prop where
  tracked : proc.Tracked (cfg.lighty arch offArr)
  valid : ∀ call ∈ proc.queued, call.source.Valid offArr
  intact : proc.Intact rangeRead rangeMeant
  conveys : proc.Conveys rangeRead rangeMeant

theorem init_offsetsKept (pages : ℤ → ℕ → ℕ → TableEntry)
    (memory : LightyMemory) :
    OffsetsKept cfg arch offArr
      (Process.init (cfg.lighty arch offArr) pages memory) where
  tracked := Process.init_tracked _ pages memory
  valid := by simp [Process.init]
  intact := Process.init_intact _ pages memory
  conveys := Process.init_conveys _ pages memory

theorem LightyCall.Valid.inSet {source : LightyCall}
    (hvalid : source.Valid offArr) :
    (cfg.lighty arch offArr).InSet
      ((cfg.lighty arch offArr).route source) := by
  apply Deployment.inSet_ringIndex
  cases source with
  | shutdown fd how => exact hvalid
  | sendfile64 outFd inFd offset count => exact hvalid.1

theorem cellAt_ne_offset (hlimits : cfg.WithinLimits)
    {outFd inFd offset count k : ℤ}
    (hvalid : (LightyCall.sendfile64 outFd inFd offset count).Valid
      offArr)
    (hk : (cfg.lighty arch offArr).InSet k) (n : ℕ) :
    cellAt cfg offArr k n ≠ offset := by
  have hinside : InOffArr offArr (cellAt cfg offArr k n) :=
    cellAt_inOffArr hlimits hk
  intro hequal
  rw [hequal] at hinside
  exact hvalid.2.2.1 hinside

theorem prepare_sendfile64 (outFd inFd offset count k : ℤ) (n : ℕ) :
    (lighty arch offArr).prepare cfg.toTableConfig
        (.sendfile64 outFd inFd offset count) memory k
        (cfg.slotAt n).1 (cfg.slotAt n).2 =
      (sendfileEntry arch outFd inFd (cellAt cfg offArr k n) count,
        storeOffset
          (storeOffset memory (cellAt cfg offArr k n) (memory offset))
          offset
          (storeOffset memory (cellAt cfg offArr k n) (memory offset)
            offset + count)) :=
  rfl

theorem prepare_offsetCell {source : LightyCall} {k cell : ℤ} {n : ℕ}
    (hcell : cell ∈ ((lighty arch offArr).prepare cfg.toTableConfig source
      memory k (cfg.slotAt n).1 (cfg.slotAt n).2).1.offsetCell) :
    cell = cellAt cfg offArr k n := by
  cases source with
  | shutdown fd how => simp [lighty, shutdownEntry,
      SysCall.offsetCell] at hcell
  | sendfile64 outFd inFd offset count =>
      rw [prepare_sendfile64] at hcell
      simpa [sendfileEntry, SysCall.offsetCell, eq_comm] using hcell

theorem prepare_memory_of_ne {source : LightyCall} {k address : ℤ}
    {n : ℕ} (hcell : address ≠ cellAt cfg offArr k n)
    (hoffset : ∀ outFd inFd offset count,
      source = .sendfile64 outFd inFd offset count → address ≠ offset) :
    ((lighty arch offArr).prepare cfg.toTableConfig source memory k
      (cfg.slotAt n).1 (cfg.slotAt n).2).2 address = memory address := by
  cases source with
  | shutdown fd how => rfl
  | sendfile64 outFd inFd offset count =>
      rw [prepare_sendfile64]
      dsimp only
      rw [storeOffset_of_ne (hoffset _ _ _ _ rfl)]
      exact storeOffset_of_ne hcell

namespace OffsetsKept

theorem cell_eq (hkept : OffsetsKept cfg arch offArr proc) {k : ℤ}
    {n : ℕ} {call : Queued LightyCall LightyMemory}
    (hget : (proc.queuedOn k)[n]? = some call) {cell : ℤ}
    (hcell : cell ∈ call.entry.offsetCell) :
    cell = cellAt cfg offArr k n := by
  rw [(hkept.tracked.built k n call hget).2] at hcell
  exact prepare_offsetCell hcell

theorem ring_inSet (hkept : OffsetsKept cfg arch offArr proc) {k : ℤ}
    {n : ℕ} {call : Queued LightyCall LightyMemory}
    (hget : (proc.queuedOn k)[n]? = some call) :
    (cfg.lighty arch offArr).InSet k := by
  have hmem : (k, call) ∈ proc.queued.map fun other =>
      (other.ring, other) :=
    mem_lane.mp (List.mem_of_getElem? hget)
  obtain ⟨other, hother, heq⟩ := List.mem_map.mp hmem
  obtain ⟨rfl, rfl⟩ := Prod.mk.inj heq
  rw [(hkept.tracked.built _ n other hget).1]
  exact (hkept.valid other hother).inSet

theorem prepared_eq (hkept : OffsetsKept cfg arch offArr proc)
    {source : LightyCall} (hready : proc.sys.user = .ready) :
    proc.sys.prepared (cfg.lighty arch offArr) source =
      (lighty arch offArr).prepare cfg.toTableConfig source
        proc.sys.memory ((cfg.lighty arch offArr).route source)
        (cfg.slotAt (proc.queuedOn
          ((cfg.lighty arch offArr).route source)).length).1
        (cfg.slotAt (proc.queuedOn
          ((cfg.lighty arch offArr).route source)).length).2 := by
  rw [hkept.tracked.length_of_outside (by rw [hready]; trivial)]
  unfold System.prepared
  rw [(hkept.tracked.good _).tail_eq]
  rfl

theorem cell_kept_of_execute (hkept : OffsetsKept cfg arch offArr proc)
    (hshares : cfg.SharesEntries) (hlimits : cfg.WithinLimits)
    {k m sysret : ℤ} {n : ℕ}
    {call : Queued LightyCall LightyMemory}
    (hpending : proc.Pending k n call)
    (hmoves : System.RingMoves (cfg.lighty arch offArr) proc.sys
      next.sys m .execute)
    (hother : k ≠ m ∨ n ≠ (proc.sys.ring m).executed.length) :
    (lighty arch offArr).perform (proc.sys.ring m).cursorEntry.call
        sysret proc.sys.memory (cellAt cfg offArr k n) =
      proc.sys.memory (cellAt cfg offArr k n) := by
  obtain ⟨front, hfront, hentry⟩ :=
    hkept.tracked.front_of_execute hshares hmoves
  have hlap := hkept.tracked.pending_lt hpending
  have hfrom := hpending.2
  have hcapacity := cfg.capacity_pos
  rw [hentry]
  apply lighty_perform_of_ne
  intro cell hcell
  rw [hkept.cell_eq hfront hcell]
  apply cellAt_ne hlimits
  by_cases hring : k = m
  · subst m
    have hn := hother.resolve_left (by simp)
    change n < _ + cfg.capacity at hlap
    omega
  · exact Or.inl hring

theorem cell_kept_of_call (hkept : OffsetsKept cfg arch offArr proc)
    (hlimits : cfg.WithinLimits) {k : ℤ} {n : ℕ}
    {call : Queued LightyCall LightyMemory}
    (hpending : proc.Pending k n call) {source : LightyCall}
    (hvalid : source.Valid offArr) (hready : proc.sys.user = .ready) :
    (proc.sys.prepared (cfg.lighty arch offArr) source).2
        (cellAt cfg offArr k n) =
      proc.sys.memory (cellAt cfg offArr k n) := by
  have hn := (List.getElem?_eq_some_iff.mp hpending.1).1
  have hlength :=
    hkept.tracked.length_of_outside (by rw [hready]; trivial) k
  have hlap := (hkept.tracked.good k).issued_lt
  change _ < _ + cfg.capacity at hlap
  have hfrom := hpending.2
  rw [hkept.prepared_eq hready]
  apply prepare_memory_of_ne
  · apply cellAt_ne hlimits
    by_cases hring : k = (cfg.lighty arch offArr).route source
    · rw [← hring]
      omega
    · exact Or.inl hring
  · rintro outFd inFd offset count rfl
    exact cellAt_ne_offset hlimits hvalid
      (hkept.ring_inSet hpending.1) n

theorem cell_kept (hkept : OffsetsKept cfg arch offArr proc)
    (hshares : cfg.SharesEntries) (hlimits : cfg.WithinLimits)
    {action : ProcessAction LightyCall (ℤ × ℤ)}
    (hproper : proc.Proper offArr action)
    (htraffic : Process.Traffic (cfg.lighty arch offArr) storeAt proc
      action next)
    {k : ℤ} {n : ℕ} {call : Queued LightyCall LightyMemory}
    (hpending : proc.Pending k n call)
    (hafter : next.Pending k n call) :
    next.sys.memory (cellAt cfg offArr k n) =
      proc.sys.memory (cellAt cfg offArr k n) := by
  cases htraffic with
  | other _ _ _ hmemory _ => rw [hmemory]
  | execute m _ _ hmoves _ _ _ hmemory _ =>
      rw [hmemory]
      exact hkept.cell_kept_of_execute hshares hlimits hpending hmoves
        (hafter.ne_front hmoves)
  | call source hready _ _ _ _ _ hmemory _ =>
      rw [hmemory]
      exact hkept.cell_kept_of_call hlimits hpending hproper.2 hready
  | store value _ =>
      have hinside : InOffArr offArr (cellAt cfg offArr k n) :=
        cellAt_inOffArr hlimits (hkept.ring_inSet hpending.1)
      apply storeOffset_of_ne
      intro hequal
      rw [hequal] at hinside
      exact hproper hinside

theorem prepared_read (hkept : OffsetsKept cfg arch offArr proc)
    (hlimits : cfg.WithinLimits) {source : LightyCall}
    (hvalid : source.Valid offArr) (hready : proc.sys.user = .ready) :
    rangeRead (proc.sys.prepared (cfg.lighty arch offArr) source).1
        (proc.sys.prepared (cfg.lighty arch offArr) source).2 =
      rangeMeant source proc.sys.memory := by
  rw [hkept.prepared_eq hready]
  cases source with
  | shutdown fd how => rfl
  | sendfile64 outFd inFd offset count =>
      have hinset : (cfg.lighty arch offArr).InSet _ := hvalid.inSet
      have hne := cellAt_ne_offset hlimits hvalid hinset
      rw [prepare_sendfile64]
      simp only [rangeRead, sendfileEntry, rangeMeant]
      rw [storeOffset_of_ne (hne _), storeOffset_self]

/-- To the caller a wrapper has advanced the offset, and nothing else. -/
theorem prepared_outside (hkept : OffsetsKept cfg arch offArr proc)
    (hlimits : cfg.WithinLimits) {source : LightyCall}
    (hvalid : source.Valid offArr) (hready : proc.sys.user = .ready)
    {address : ℤ} (houtside : ¬ InOffArr offArr address) :
    (proc.sys.prepared (cfg.lighty arch offArr) source).2 address =
      source.advanced proc.sys.memory address := by
  have hinset : (cfg.lighty arch offArr).InSet
      ((cfg.lighty arch offArr).route source) := hvalid.inSet
  rw [hkept.prepared_eq hready]
  cases source with
  | shutdown fd how => rfl
  | sendfile64 outFd inFd offset count =>
      have hne := cellAt_ne_offset hlimits hvalid hinset
      simp only [LightyCall.advanced]
      by_cases haddress : address = offset
      · subst address
        rw [prepare_sendfile64]
        dsimp only
        rw [storeOffset_self, storeOffset_self,
          storeOffset_of_ne (hne _).symm]
      · rw [storeOffset_of_ne haddress]
        apply prepare_memory_of_ne
        · intro hequal
          rw [hequal] at houtside
          exact houtside (cellAt_inOffArr hlimits hinset)
        · rintro _ _ _ _ ⟨⟩
          exact haddress

/-- Besides the calls and the stores only executed entries write to the
memory, and these to their cells. -/
theorem outside_kept (hkept : OffsetsKept cfg arch offArr proc)
    (hshares : cfg.SharesEntries) (hlimits : cfg.WithinLimits)
    {action : SystemAction LightyCall}
    (hcalled : ∀ source, action ≠ .call source)
    (hstep : proc.step (cfg.lighty arch offArr) access storeAt
      (.library action) = some next) :
    next.queued = proc.queued ∧
      ∀ address, ¬ InOffArr offArr address →
        next.sys.memory address = proc.sys.memory address := by
  cases Process.step_traffic hstep with
  | other _ _ _ hmemory hqueued => exact ⟨hqueued, by simp [hmemory]⟩
  | execute k _ sysret hmoves _ _ _ hmemory hqueued =>
      refine ⟨hqueued, ?_⟩
      intro address houtside
      obtain ⟨front, hfront, hentry⟩ :=
        hkept.tracked.front_of_execute hshares hmoves
      rw [hmemory, hentry]
      apply lighty_perform_of_ne
      rintro cell hcell rfl
      rw [hkept.cell_eq hfront hcell] at houtside
      exact houtside
        (cellAt_inOffArr hlimits (hkept.ring_inSet hfront))
  | call source _ _ _ _ _ _ _ _ => exact absurd rfl (hcalled source)

theorem afterStep (hkept : OffsetsKept cfg arch offArr proc)
    (hshares : cfg.SharesEntries) (hlimits : cfg.WithinLimits)
    {action : ProcessAction LightyCall (ℤ × ℤ)}
    (hsafe : proc.NoOverrun (cfg.lighty arch offArr) action)
    (hproper : proc.Proper offArr action)
    (hstep : proc.step (cfg.lighty arch offArr) access storeAt action =
      some next) :
    OffsetsKept cfg arch offArr next := by
  have htraffic := Process.step_traffic hstep
  have htracked := hkept.tracked.afterStep hstep hsafe
  constructor
  · exact htracked
  · apply htraffic.forall_queued hkept.valid
    rintro source rfl
    exact hproper.2
  · refine hkept.intact.afterTraffic htraffic hkept.tracked htracked
      ?_ ?_
    · intro k n call hpending hafter
      apply rangeRead_congr
      intro cell hcell
      rw [hkept.cell_eq hpending.1 hcell]
      exact hkept.cell_kept hshares hlimits hproper htraffic hpending
        hafter
    · rintro source rfl hready
      exact hkept.prepared_read hlimits hproper.2 hready
  · exact hkept.conveys.afterTraffic hkept.tracked htracked
      (htracked.good.drainsInOrder hshares) hkept.intact htraffic

end OffsetsKept

/-! ## The direct calls -/

/-- The caller's memory and the ranges of its calls are those of the direct
calls. -/
structure Follows (content : ℤ → ℤ → UInt8) (offArr : ℤ)
    (files : Files) (proc : Process LightyCall LightyMemory) : Prop where
  offsets_eq : ∀ address, ¬ InOffArr offArr address →
    proc.sys.memory address = files.offsets address
  sent_eq :
    (proc.queued.filterMap fun call =>
        rangeMeant call.source call.memory).map
      (FileRange.bytes content) = files.sent

namespace Follows

variable {files : Files}

theorem of_sameCaller (hfollows : Follows content offArr files proc)
    (hmemory : ∀ address, ¬ InOffArr offArr address →
      next.sys.memory address = proc.sys.memory address)
    (hqueued : next.queued = proc.queued) :
    Follows content offArr files next where
  offsets_eq := by
    intro address houtside
    rw [hmemory address houtside]
    exact hfollows.offsets_eq address houtside
  sent_eq := by
    rw [hqueued]
    exact hfollows.sent_eq

theorem afterStore (hfollows : Follows content offArr files proc)
    {value : ℤ × ℤ}
    (hstep : proc.step (cfg.lighty arch offArr) access storeAt
      (.store value) = some next) :
    Follows content offArr (files.assign value.1 value.2) next := by
  obtain ⟨_, rfl⟩ := Process.step_store hstep
  constructor
  · intro address houtside
    change storeOffset proc.sys.memory value.1 value.2 address =
      Function.update files.offsets value.1 value.2 address
    by_cases haddress : address = value.1
    · rw [haddress, storeOffset_self, Function.update_self]
    · rw [storeOffset_of_ne haddress, Function.update_of_ne haddress]
      exact hfollows.offsets_eq address houtside
  · exact hfollows.sent_eq

theorem afterCall (hfollows : Follows content offArr files proc)
    (hkept : OffsetsKept cfg arch offArr proc)
    (hlimits : cfg.WithinLimits) {source : LightyCall}
    (hsegment : proc.sys.inSegment = true)
    (hvalid : source.Valid offArr)
    (hstep : proc.step (cfg.lighty arch offArr) access storeAt
      (.library (.call source)) = some next) :
    Follows content offArr
      (directStep content files (.library (.call source))) next := by
  obtain ⟨hsys, hqueued⟩ := Process.step_library hstep
  obtain ⟨hready, hcall⟩ := System.step_call hsys
  have hmemory := (System.call_queued hsegment hcall).2.1
  rw [System.queuedBy, if_pos hsegment] at hqueued
  cases source with
  | shutdown fd how =>
      constructor
      · rw [hmemory, hkept.prepared_eq hready]
        exact hfollows.offsets_eq
      · rw [hqueued, List.filterMap_append, List.map_append,
          hfollows.sent_eq]
        exact List.append_nil _
  | sendfile64 outFd inFd offset count =>
      obtain ⟨_, hnull, houtside, hcount⟩ := id hvalid
      have hoffset := hfollows.offsets_eq offset houtside
      constructor
      · intro address hother
        rw [hmemory, hkept.prepared_outside hlimits hvalid hready hother]
        simp only [directStep, Files.sysSendfile, if_neg hnull,
          LightyCall.advanced]
        by_cases haddress : address = offset
        · subst address
          rw [storeOffset_self, Function.update_self, hoffset,
            Int.toNat_of_nonneg hcount]
        · rw [Function.update_of_ne haddress,
            storeOffset_of_ne haddress]
          exact hfollows.offsets_eq address hother
      · rw [hqueued, List.filterMap_append, List.map_append,
          hfollows.sent_eq]
        simp [directStep, Files.sysSendfile, hnull, rangeMeant,
          FileRange.bytes, hoffset]

theorem afterLibrary (hfollows : Follows content offArr files proc)
    (hkept : OffsetsKept cfg arch offArr proc)
    (hshares : cfg.SharesEntries) (hlimits : cfg.WithinLimits)
    {action : SystemAction LightyCall}
    (hcalled : ∀ source, action ≠ .call source)
    (hstep : proc.step (cfg.lighty arch offArr) access storeAt
      (.library action) = some next) :
    Follows content offArr files next := by
  obtain ⟨hqueued, hmemory⟩ :=
    hkept.outside_kept hshares hlimits hcalled hstep
  exact hfollows.of_sameCaller hmemory hqueued

theorem afterStep (hfollows : Follows content offArr files proc)
    (hkept : OffsetsKept cfg arch offArr proc)
    (hshares : cfg.SharesEntries) (hlimits : cfg.WithinLimits)
    {action : ProcessAction LightyCall (ℤ × ℤ)}
    (hproper : proc.Proper offArr action)
    (hstep : proc.step (cfg.lighty arch offArr) access storeAt action =
      some next) :
    Follows content offArr (directStep content files action) next := by
  cases action with
  | store value => exact hfollows.afterStore hstep
  | library action =>
      cases action with
      | call source =>
          exact hfollows.afterCall hkept hlimits hproper.1 hproper.2 hstep
      | batchStart =>
          exact hfollows.afterLibrary hkept hshares hlimits (by simp)
            hstep
      | batchFlush =>
          exact hfollows.afterLibrary hkept hshares hlimits (by simp)
            hstep
      | user =>
          exact hfollows.afterLibrary hkept hshares hlimits (by simp)
            hstep
      | worker k expired sysret =>
          exact hfollows.afterLibrary hkept hshares hlimits (by simp)
            hstep

end Follows

/-- The queued transfers read their offsets from cells of `off_arr`, the
executed ones found there what the caller's offset was at the call, and the
ranges and the caller's offsets are those of the direct calls. -/
theorem lighty_transfers_as_direct
    {pages : ℤ → ℕ → ℕ → TableEntry}
    {actions : List (ProcessAction LightyCall (ℤ × ℤ))}
    (hshares : cfg.SharesEntries) (hlimits : cfg.WithinLimits)
    (hrun : Transition.run
      (Process.step (cfg.lighty arch offArr) access storeAt)
      (Process.init (cfg.lighty arch offArr) pages memory) actions =
        some final)
    (hsafe : Transition.StepsMeet
      (Process.step (cfg.lighty arch offArr) access storeAt)
      (fun proc action => proc.NoOverrun (cfg.lighty arch offArr) action ∧
        proc.Proper offArr action)
      (Process.init (cfg.lighty arch offArr) pages memory) actions) :
    (∀ k n call, (final.queuedOn k)[n]? = some call →
      ∀ cell ∈ call.entry.offsetCell,
        cell = offArrCell cfg.toTableConfig offArr k (cfg.slotAt n).1
            (cfg.slotAt n).2 ∧
          InOffArr offArr cell) ∧
      (∀ k, lane k (final.sentLog rangeRead) <+:
        lane k (final.meantLog rangeMeant)) ∧
      ∀ (content : ℤ → ℤ → UInt8) (position : ℤ → ℤ),
        Follows content offArr
          (actions.foldl (directStep content) ⟨position, memory, []⟩)
          final := by
  have hstep : ∀ proc action next,
      OffsetsKept cfg arch offArr proc →
        proc.NoOverrun (cfg.lighty arch offArr) action ∧
          proc.Proper offArr action →
        proc.step (cfg.lighty arch offArr) access storeAt action =
          some next →
        OffsetsKept cfg arch offArr next :=
    fun _ _ _ hkept hmeets hstep =>
      hkept.afterStep hshares hlimits hmeets.1 hmeets.2 hstep
  have hkept : OffsetsKept cfg arch offArr final :=
    Transition.run_invariant hstep (init_offsetsKept pages memory) hrun
      hsafe
  refine ⟨?_, hkept.conveys, ?_⟩
  · intro k n call hget cell hcell
    have hcellAt := hkept.cell_eq hget hcell
    refine ⟨hcellAt, ?_⟩
    rw [hcellAt]
    exact cellAt_inOffArr hlimits (hkept.ring_inSet hget)
  · intro content position
    have hstart : OffsetsKept cfg arch offArr
          (Process.init (cfg.lighty arch offArr) pages memory) ∧
        Follows content offArr ⟨position, memory, []⟩
          (Process.init (cfg.lighty arch offArr) pages memory) :=
      ⟨init_offsetsKept pages memory, ⟨fun _ _ => rfl, rfl⟩⟩
    have hboth := Transition.run_follows
      (fun files proc => OffsetsKept cfg arch offArr proc ∧
        Follows content offArr files proc)
      (fun files proc action next hrelated hmeets hnext =>
        ⟨hstep proc action next hrelated.1 hmeets hnext,
          hrelated.2.afterStep hrelated.1 hshares hlimits hmeets.2 hnext⟩)
      hstart hrun hsafe
    exact hboth.2

/-- Two transfers over one offset are queued before the worker executes the
first one. -/
def queuedTransfers : List (ProcessAction LightyCall (ℤ × ℤ)) :=
  .store (8, 100) ::
    (SystemAction.segmentStart oneWorkerSet ++
      SystemAction.wholeCall (LightyCall.sendfile64 4 3 8 10) ++
      SystemAction.wholeCall (LightyCall.sendfile64 4 3 8 5) ++
      SystemAction.workerSteps 0 false 3).map .library

theorem queuedTransfers_as_direct :
    ∃ final,
      Transition.run
        (Process.step (oneWorkerSet.lighty .x86 16) .atomic storeAt)
        (Process.init (oneWorkerSet.lighty .x86 16)
          (fun _ => blankMemory) fun _ => 0)
        queuedTransfers = some final ∧
      (lane 0 (final.sentLog rangeRead)).map Prod.snd =
        [some ⟨4, 3, 100, 10⟩] ∧
      (lane 0 (final.meantLog rangeMeant)).map Prod.snd =
        [some ⟨4, 3, 100, 10⟩, some ⟨4, 3, 110, 5⟩] ∧
      ∀ content position,
        Follows content 16
          (queuedTransfers.foldl (directStep content)
            ⟨position, fun _ => 0, []⟩) final := by
  have hlimits : oneWorkerSet.WithinLimits :=
    ⟨by decide, by decide, by decide⟩
  have hrun :
      Transition.run
        (Process.step (oneWorkerSet.lighty .x86 16) .atomic storeAt)
        (Process.init (oneWorkerSet.lighty .x86 16)
          (fun _ => blankMemory) fun _ => 0)
        queuedTransfers = some _ := rfl
  have hdirect :=
    lighty_transfers_as_direct (by decide) hlimits hrun (by decide)
  exact ⟨_, hrun, rfl, rfl, hdirect.2.2⟩

/-- The run of `shortTransfer` over an offset of 100. -/
def shortOffsets : List (ProcessAction LightyCall (ℤ × ℤ)) :=
  .store (1000, 100) :: shortTransfer.map .library

/-- The worker has executed as many entries as were queued, and the transfer
is not among them. -/
theorem shortOffsets_transfer_nothing :
    ∃ final,
      Transition.run
        (Process.step (shortTableSet.lighty .x86 4096) .atomic storeAt)
        (Process.init (shortTableSet.lighty .x86 4096)
          (fun _ => blankMemory) fun _ => 0)
        shortOffsets = some final ∧
      Transition.StepsMeet
        (Process.step (shortTableSet.lighty .x86 4096) .atomic storeAt)
        (fun proc action =>
          proc.NoOverrun (shortTableSet.lighty .x86 4096) action ∧
            proc.Proper 4096 action)
        (Process.init (shortTableSet.lighty .x86 4096)
          (fun _ => blankMemory) fun _ => 0)
        shortOffsets ∧
      shortTableSet.WithinLimits ∧
      (lane 0 (final.meantLog rangeMeant)).map Prod.snd =
        [none, none, none, some ⟨4, 9, 100, 7⟩, none, none, none] ∧
      (lane 0 (final.sentLog rangeRead)).map Prod.snd =
        List.replicate 7 none := by
  have hends :
      (Transition.run
        (Process.step (shortTableSet.lighty .x86 4096) .atomic storeAt)
        (Process.init (shortTableSet.lighty .x86 4096)
          (fun _ => blankMemory) fun _ => 0)
        shortOffsets).map
        (fun final =>
          ((lane 0 (final.meantLog rangeMeant)).map Prod.snd,
            (lane 0 (final.sentLog rangeRead)).map Prod.snd)) =
      some ([none, none, none, some ⟨4, 9, 100, 7⟩, none, none, none],
        List.replicate 7 none) := by
    decide +kernel
  obtain ⟨final, hrun, hfinal⟩ := Option.map_eq_some_iff.mp hends
  simp only [Prod.mk.injEq] at hfinal
  exact ⟨final, hrun, by decide +kernel,
    ⟨by decide, by decide, by decide⟩, hfinal⟩

end Saio
