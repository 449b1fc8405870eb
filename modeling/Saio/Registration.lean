import Saio.Machine
import Saio.SharedLayout
import Mathlib.Tactic

/-!
# Several processes register their rings

`init_worker` registers the rings of its set one after the other.  With the
first ring `sys_esca_register` pins the header page of the process in
`shared_info_pinned_pages` and maps what it finds there as the headers of the
whole set; with the others it waits until `table[id]` is set.  It then maps
the tables of the ring, clears the ring and creates its worker, and the user
side stores its own pointers to the tables.

`shared_info_pinned_pages` is one array for all processes.  As long as no
process pins its header between the pin and the mapping of another one,
registration never waits forever, and in every interleaving each ring is
handed to its worker in the state from which the machine starts, and is not
touched by any later registration.  The two sides of a ring then reach the same
entries if the layout lets them.  A process that is overtaken between its pin
and its mapping gets the headers of another one.
-/

namespace Saio

/-! ## Processes and their memories -/

/-- The processes of a server, and which of their allocations succeed.  The
rings have their places in the arrays of the module, and the headers of a set
in their page.  The memories of different processes share no page frame, and
the blocks allocated by one process share no page. -/
structure Fleet extends SetConfig where
  processes : ℕ
  rings_le : processes * ratio ≤ cpuNumLimit
  headers_le : ratio ≤ 8
  idleTime : BitVec 32
  headerAllocated : ℕ → Bool
  allocated : ℕ → ℕ → Bool
  memory : ℕ → SetMemory
  apart : ∀ p q a b, p ≠ q →
    (memory p).frameOf a ≠ (memory q).frameOf b
  blocks : ∀ p r s i j, i < maxTableLen → j < maxTableLen →
    (memory p).alloc r / pageSize + i = (memory p).alloc s / pageSize + j →
      r = s

namespace Fleet

variable {fleet : Fleet} {p q r s i j : ℕ}

def ringOf (fleet : Fleet) (p r : ℕ) : ℤ :=
  p * fleet.ratio + r

def headerFrame (fleet : Fleet) (p : ℕ) : ℕ :=
  (fleet.memory p).frameOf ((fleet.memory p).header / pageSize)

def tableFrame (fleet : Fleet) (p r j : ℕ) : ℕ :=
  (fleet.memory p).frameOf ((fleet.memory p).alloc r / pageSize + j)

theorem ringOf_inj (hr : r < fleet.ratio) (hs : s < fleet.ratio)
    (hequal : fleet.ringOf p r = fleet.ringOf q s) : p = q ∧ r = s := by
  unfold ringOf at hequal
  have hnat : p * fleet.ratio + r = q * fleet.ratio + s := by
    exact_mod_cast hequal
  have hdiv := congrArg (· / fleet.ratio) hnat
  have hmod := congrArg (· % fleet.ratio) hnat
  simp only [Nat.mul_add_mod_of_lt hr, Nat.mul_add_mod_of_lt hs] at hmod
  simp only [Nat.mul_comm _ fleet.ratio, Nat.mul_add_div fleet.ratio_pos,
    Nat.div_eq_of_lt hr, Nat.div_eq_of_lt hs, Nat.add_zero] at hdiv
  exact ⟨hdiv, hmod⟩

theorem headerFrame_inj
    (hequal : fleet.headerFrame p = fleet.headerFrame q) : p = q := by
  by_contra hne
  exact fleet.apart p q _ _ hne hequal

theorem tableFrame_inj (hi : i < fleet.maxTableLen)
    (hj : j < fleet.maxTableLen)
    (hequal : fleet.tableFrame p r i = fleet.tableFrame q s j) :
    p = q ∧ r = s := by
  by_cases hp : p = q
  · subst q
    have hpage := (fleet.memory p).frameOf_injective hequal
    exact ⟨rfl, fleet.blocks p r s i j hi hj hpage⟩
  · exact absurd hequal (fleet.apart p q _ _ hp)

theorem sharedInfoPinnedPages_eq (fleet : Fleet) (p : ℕ) :
    (fleet.memory p).sharedInfoPinnedPages[0]? =
      some (fleet.headerFrame p) :=
  SetMemory.getUserPages_getElem Nat.one_pos

theorem tablePinnedPages_eq (hj : j < fleet.maxTableLen) (p r : ℕ) :
    ((fleet.memory p).tablePinnedPages fleet.toSetConfig r)[j]? =
      some (fleet.tableFrame p r j) :=
  SetMemory.getUserPages_getElem hj

end Fleet

/-! ## Two processes for concrete runs -/

/-- Process `p` owns the frames `Nat.pair p _`; its header is page `0` and
its rings have one page each. -/
def pairedMemory (p : ℕ) : SetMemory where
  frameOf := Nat.pair p
  frameOf_injective := fun _ _ hequal => (Nat.pair_eq_pair.mp hequal).2
  header := 0
  header_aligned := Nat.dvd_zero _
  alloc := fun r => pageSize * (r + 1)
  alloc_aligned := fun _ => Nat.dvd_mul_right _ _

def twoProcesses : Fleet where
  toSetConfig := oneWorkerSet
  processes := 2
  rings_le := by decide
  headers_le := by decide
  idleTime := 37
  headerAllocated := fun _ => true
  allocated := fun _ _ => true
  memory := pairedMemory
  apart := fun _ _ _ _ hne hequal =>
    hne (Nat.pair_eq_pair.mp hequal).1
  blocks := by
    intro p r s i j hi hj hpage
    have hpos : 0 < pageSize := by decide
    have hlen : oneWorkerSet.maxTableLen = 1 := rfl
    simp only [pairedMemory, Nat.mul_div_cancel_left _ hpos] at hpage
    omega

/-! ## The shared state -/

/-- An `esca_table_t`; the kernel's pointers to the tables are page frames,
the user's are addresses. -/
structure Header where
  tables : ℕ → ℕ
  userTables : ℕ → ℕ
  headTable : ℕ
  tailTable : ℕ
  headEntry : ℕ
  tailEntry : ℕ
  idleTime : BitVec 32
  flags : BitVec 32

/-- Through the pointers of the kernel and of the user, all entries are the
same bytes. -/
def Header.SameTables (cfg : SetConfig) (memory : SetMemory)
    (header : Header) : Prop :=
  ∀ i < cfg.maxTableLen, ∀ j < cfg.maxTableEntry, ∀ b < entrySize,
    kmapByte (header.tables i) (j * entrySize + b) =
      some (memory.translate
        (header.userTables i + (j * entrySize + b)))

/-- The control points of `init_worker` for one ring: at the head of its
loop, behind the pin of the header, behind the header branch, behind the
mapping of the tables, behind the initialisation, and back in user space. -/
inductive Stage
  | entering
  | pinned
  | headed
  | mapped
  | cleared
  | created
  deriving DecidableEq

def Stage.rank : Stage → ℕ
  | .entering => 0
  | .pinned => 1
  | .headed => 2
  | .mapped => 3
  | .cleared => 4
  | .created => 5

structure BootPc where
  ring : ℕ
  stage : Stage
  deriving DecidableEq

/-- The globals of the module, the header pages and the table pages;
`threads` counts the workers created for a ring. -/
structure Boot where
  sharedInfo : Option ℕ
  table : ℤ → Option (ℕ × ℕ)
  headers : ℕ × ℕ → Header
  entries : ℕ → ℕ → TableEntry
  submitted : ℤ → ℤ
  threads : ℤ → ℕ
  pcs : ℕ → BootPc

namespace Boot

def setPc (state : Boot) (p ring : ℕ) (stage : Stage) : Boot :=
  { state with pcs := Function.update state.pcs p ⟨ring, stage⟩ }

def pinHeader (fleet : Fleet) (state : Boot) (p : ℕ) : Boot :=
  { state.setPc p 0 .pinned with
    sharedInfo := (fleet.memory p).sharedInfoPinnedPages[0]? }

/-- `table[i] = header + i - id` for the rings of the set. -/
def mapHeader (fleet : Fleet) (state : Boot) (p page : ℕ) : Boot :=
  { state.setPc p 0 .headed with
    table := fun k =>
      if fleet.ringOf p 0 ≤ k ∧ k < fleet.ringOf p 0 + fleet.ratio then
        some (page, (k - fleet.ringOf p 0).toNat)
      else state.table k }

def mapTables (fleet : Fleet) (state : Boot) (p r : ℕ)
    (slot : ℕ × ℕ) : Boot :=
  let pages := (fleet.memory p).tablePinnedPages fleet.toSetConfig r
  { state.setPc p r .mapped with
    headers := Function.update state.headers slot
      { state.headers slot with
        tables := fun j => pages[j]?.getD ((state.headers slot).tables j) } }

/-- The entries whose status the initialisation clears. -/
def clearEntries (cfg : TableConfig) (state : Boot) (slot : ℕ × ℕ) :
    ℕ → ℕ → TableEntry := fun frame e =>
  if frame ∈ (List.range cfg.maxTableLen).map
        (state.headers slot).tables ∧ e < cfg.maxTableEntry then
    { state.entries frame e with rstatus := .empty }
  else state.entries frame e

def initRing (fleet : Fleet) (state : Boot) (p r : ℕ)
    (slot : ℕ × ℕ) : Boot :=
  { state.setPc p r .cleared with
    entries := state.clearEntries fleet.toTableConfig slot
    submitted := Function.update state.submitted (fleet.ringOf p r) 0
    headers := Function.update state.headers slot
      { state.headers slot with
        headTable := 0
        tailTable := 0
        headEntry := 0
        tailEntry := 0
        idleTime := fleet.idleTime
        flags := 0 ||| escaWorkerNeedWakeup } }

def createWorker (fleet : Fleet) (state : Boot) (p r : ℕ) : Boot :=
  { state.setPc p r .created with
    threads := Function.update state.threads (fleet.ringOf p r)
      (state.threads (fleet.ringOf p r) + 1) }

/-- The user side stores its own pointers and goes on to the next ring. -/
def storeUserTables (fleet : Fleet) (state : Boot) (p r : ℕ) : Boot :=
  { state.setPc p (r + 1) .entering with
    headers := Function.update state.headers (fleet.headerFrame p, r)
      { state.headers (fleet.headerFrame p, r) with
        userTables := fun j =>
          if j < fleet.maxTableLen then
            (fleet.memory p).userTables fleet.toSetConfig r j
          else
            (state.headers (fleet.headerFrame p, r)).userTables j } }

/-- `init_worker` calls `sys_esca_register` for ring `r`, unless its tables
cannot be allocated.  The wait for `table[id]` has no step. -/
def enter (fleet : Fleet) (state : Boot) (p r : ℕ) : Option Boot :=
  if fleet.allocated p r = false then none
  else if r = 0 ∧ fleet.headerAllocated p = true then
    some (state.pinHeader fleet p)
  else if (state.table (fleet.ringOf p r)).isSome then
    some (state.setPc p r .headed)
  else none

/-- The next step of process `p`, at ring `r` of its set. -/
def stepAt (fleet : Fleet) (state : Boot) (p r : ℕ) :
    Stage → Option Boot
  | .entering => state.enter fleet p r
  | .pinned =>
      match state.sharedInfo with
      | none => none
      | some page => some (state.mapHeader fleet p page)
  | .headed =>
      match state.table (fleet.ringOf p r) with
      | none => none
      | some slot => some (state.mapTables fleet p r slot)
  | .mapped =>
      match state.table (fleet.ringOf p r) with
      | none => none
      | some slot => some (state.initRing fleet p r slot)
  | .cleared => some (state.createWorker fleet p r)
  | .created => some (state.storeUserTables fleet p r)

/-- `init_worker` turns ids from `MAX_USR_WORKER` on away, and its loop ends
with the set. -/
def step (fleet : Fleet) (state : Boot) (p : ℕ) : Option Boot :=
  if p < fleet.processes ∧ (state.pcs p).ring < fleet.ratio then
    state.stepAt fleet p (state.pcs p).ring (state.pcs p).stage
  else none

/-- The module is loaded, no process has registered. -/
def Loaded (state : Boot) : Prop :=
  (∀ k, state.table k = none) ∧ (∀ k, state.threads k = 0) ∧
    ∀ p, state.pcs p = ⟨0, .entering⟩

def Done (fleet : Fleet) (state : Boot) (p : ℕ) : Prop :=
  state.pcs p = ⟨fleet.ratio, .entering⟩

instance (fleet : Fleet) (state : Boot) (p : ℕ) :
    Decidable (state.Done fleet p) :=
  inferInstanceAs (Decidable (_ = _))

/-- No process pins its header while another one is between its pin and its
mapping. -/
def PinsAlone (fleet : Fleet) (state : Boot) (p : ℕ) : Prop :=
  state.pcs p = ⟨0, .entering⟩ →
    ∀ q < fleet.processes, (state.pcs q).stage ≠ .pinned

instance (fleet : Fleet) (state : Boot) (p : ℕ) :
    Decidable (state.PinsAlone fleet p) :=
  inferInstanceAs (Decidable (_ → _))

/-- The worker that is created for ring `k`, over the memory it finds. -/
def workerOf (state : Boot) (k : ℤ) : Option KernelWorker :=
  match state.table k with
  | none => none
  | some slot =>
      let header := state.headers slot
      some
        { ring :=
            { table :=
                { pages := fun i j => state.entries (header.tables i) j
                  headTable := header.headTable
                  tailTable := header.tailTable
                  headEntry := header.headEntry
                  tailEntry := header.tailEntry }
              producer := .idle
              worker := .poll
              i := header.headTable
              j := header.headEntry
              submitted := state.submitted k
              issued := []
              executed := [] }
          flags := header.flags
          control := .running
          task := .running
          queued := false }

/-- A freshly loaded module over blank pages. -/
def blank : Boot where
  sharedInfo := none
  table := fun _ => none
  headers := fun _ => ⟨fun _ => 0, fun _ => 0, 0, 0, 0, 0, 0, 0⟩
  entries := blankMemory
  submitted := fun _ => 0
  threads := fun _ => 0
  pcs := fun _ => ⟨0, .entering⟩

/-- The second process starts when the first has mapped its header; then they
take turns. -/
def takingTurns : List ℕ := [0, 0, 1, 1, 0, 1, 0, 1, 0, 1, 0, 1]

end Boot

/-! ## What a step does -/

namespace Boot

variable {fleet : Fleet} {state next : Boot} {p q r s : ℕ}

/-- A step of process `p` at ring `r`. -/
inductive Move (fleet : Fleet) (state : Boot) (p r : ℕ) : Boot → Prop
  | pin (hpc : state.pcs p = ⟨0, .entering⟩) (hr : r = 0)
      (hheader : fleet.headerAllocated p = true) :
      Move fleet state p r (state.pinHeader fleet p)
  | wait (hpc : state.pcs p = ⟨r, .entering⟩)
      (htable : (state.table (fleet.ringOf p r)).isSome) :
      Move fleet state p r (state.setPc p r .headed)
  | mapHeader (page : ℕ) (hpc : state.pcs p = ⟨r, .pinned⟩)
      (hinfo : state.sharedInfo = some page) :
      Move fleet state p r (state.mapHeader fleet p page)
  | mapTables (slot : ℕ × ℕ) (hpc : state.pcs p = ⟨r, .headed⟩)
      (htable : state.table (fleet.ringOf p r) = some slot) :
      Move fleet state p r (state.mapTables fleet p r slot)
  | initRing (slot : ℕ × ℕ) (hpc : state.pcs p = ⟨r, .mapped⟩)
      (htable : state.table (fleet.ringOf p r) = some slot) :
      Move fleet state p r (state.initRing fleet p r slot)
  | create (hpc : state.pcs p = ⟨r, .cleared⟩) :
      Move fleet state p r (state.createWorker fleet p r)
  | finish (hpc : state.pcs p = ⟨r, .created⟩) :
      Move fleet state p r (state.storeUserTables fleet p r)

theorem step_move (hstep : state.step fleet p = some next) :
    p < fleet.processes ∧ ∃ r < fleet.ratio, Move fleet state p r next := by
  unfold step at hstep
  split at hstep
  next hguard =>
    refine ⟨hguard.1, (state.pcs p).ring, hguard.2, ?_⟩
    generalize hpc : state.pcs p = pc at hstep ⊢
    obtain ⟨r, stage⟩ := pc
    cases stage with
    | entering =>
        simp only [stepAt, enter] at hstep
        split at hstep
        next => simp at hstep
        next =>
          split at hstep
          next hheader =>
            cases hstep
            obtain ⟨rfl, hheader⟩ := hheader
            exact .pin hpc rfl hheader
          next =>
            split at hstep
            next htable =>
              cases hstep
              exact .wait hpc htable
            next => simp at hstep
    | pinned =>
        simp only [stepAt] at hstep
        split at hstep
        next => simp at hstep
        next page hinfo =>
          cases hstep
          exact .mapHeader page hpc hinfo
    | headed =>
        simp only [stepAt] at hstep
        split at hstep
        next => simp at hstep
        next slot htable =>
          cases hstep
          exact .mapTables slot hpc htable
    | mapped =>
        simp only [stepAt] at hstep
        split at hstep
        next => simp at hstep
        next slot htable =>
          cases hstep
          exact .initRing slot hpc htable
    | cleared =>
        cases hstep
        exact .create hpc
    | created =>
        cases hstep
        exact .finish hpc
  next => simp at hstep

end Boot

/-! ## A ring that is handed over -/

namespace Boot

variable {fleet : Fleet} {state next : Boot} {p q r s : ℕ}

def Headed (fleet : Fleet) (p : ℕ) (state : Boot) : Prop :=
  ∀ s < fleet.ratio,
    state.table (fleet.ringOf p s) = some (fleet.headerFrame p, s)

def Mapped (fleet : Fleet) (p r : ℕ) (state : Boot) : Prop :=
  ∀ j < fleet.maxTableLen,
    (state.headers (fleet.headerFrame p, r)).tables j =
      fleet.tableFrame p r j

structure Cleared (fleet : Fleet) (p r : ℕ) (state : Boot) : Prop where
  status : ∀ j < fleet.maxTableLen, ∀ e < fleet.maxTableEntry,
    (state.entries (fleet.tableFrame p r j) e).rstatus = .empty
  submitted : state.submitted (fleet.ringOf p r) = 0
  headTable : (state.headers (fleet.headerFrame p, r)).headTable = 0
  tailTable : (state.headers (fleet.headerFrame p, r)).tailTable = 0
  headEntry : (state.headers (fleet.headerFrame p, r)).headEntry = 0
  tailEntry : (state.headers (fleet.headerFrame p, r)).tailEntry = 0
  idleTime :
    (state.headers (fleet.headerFrame p, r)).idleTime = fleet.idleTime
  flags : (state.headers (fleet.headerFrame p, r)).flags =
    0 ||| escaWorkerNeedWakeup

/-- The ring is registered, each side has its pointers to the tables, and one
worker was created for it. -/
structure Ready (fleet : Fleet) (p r : ℕ) (state : Boot) : Prop where
  mapped : state.Mapped fleet p r
  cleared : state.Cleared fleet p r
  userTables : ∀ j < fleet.maxTableLen,
    (state.headers (fleet.headerFrame p, r)).userTables j =
      (fleet.memory p).userTables fleet.toSetConfig r j
  threads : state.threads (fleet.ringOf p r) = 1

/-- Everything that belongs to ring `r` of process `p` is as before. -/
structure SameRing (fleet : Fleet) (p r : ℕ) (state next : Boot) :
    Prop where
  header : next.headers (fleet.headerFrame p, r) =
    state.headers (fleet.headerFrame p, r)
  entries : ∀ j < fleet.maxTableLen,
    next.entries (fleet.tableFrame p r j) =
      state.entries (fleet.tableFrame p r j)
  submitted : next.submitted (fleet.ringOf p r) =
    state.submitted (fleet.ringOf p r)
  threads : next.threads (fleet.ringOf p r) =
    state.threads (fleet.ringOf p r)

namespace SameRing

theorem mapped (hsame : SameRing fleet p r state next)
    (hmapped : state.Mapped fleet p r) : next.Mapped fleet p r := by
  unfold Mapped
  rw [hsame.header]
  exact hmapped

theorem cleared (hsame : SameRing fleet p r state next)
    (hcleared : state.Cleared fleet p r) : next.Cleared fleet p r where
  status := by
    intro j hj
    rw [hsame.entries j hj]
    exact hcleared.status j hj
  submitted := hsame.submitted.trans hcleared.submitted
  headTable := by rw [hsame.header, hcleared.headTable]
  tailTable := by rw [hsame.header, hcleared.tailTable]
  headEntry := by rw [hsame.header, hcleared.headEntry]
  tailEntry := by rw [hsame.header, hcleared.tailEntry]
  idleTime := by rw [hsame.header, hcleared.idleTime]
  flags := by rw [hsame.header, hcleared.flags]

theorem ready (hsame : SameRing fleet p r state next)
    (hready : state.Ready fleet p r) : next.Ready fleet p r where
  mapped := hsame.mapped hready.mapped
  cleared := hsame.cleared hready.cleared
  userTables := by
    rw [hsame.header]
    exact hready.userTables
  threads := hsame.threads.trans hready.threads

end SameRing

/-! ## The invariant -/

/-- What holds of the set of a process that stands at `stage` of ring `r`. -/
structure SetSound (fleet : Fleet) (p r : ℕ) (stage : Stage)
    (state : Boot) : Prop where
  ring_le : r ≤ fleet.ratio
  inside : 1 ≤ stage.rank → r < fleet.ratio
  pinned : stage = .pinned →
    r = 0 ∧ state.sharedInfo = some (fleet.headerFrame p)
  headed : r ≠ 0 ∨ 2 ≤ stage.rank → state.Headed fleet p
  unset : r = 0 → stage.rank ≤ 1 →
    ∀ s < fleet.ratio, state.table (fleet.ringOf p s) = none
  ready : ∀ s < r, state.Ready fleet p s
  mapped : 3 ≤ stage.rank → state.Mapped fleet p r
  cleared : 4 ≤ stage.rank → state.Cleared fleet p r
  created : stage = .created → state.threads (fleet.ringOf p r) = 1
  fresh : ∀ s < fleet.ratio, r < s ∨ r = s ∧ stage ≠ .created →
    state.threads (fleet.ringOf p s) = 0
  failed : fleet.headerAllocated p = false → r = 0 ∧ stage = .entering

def ProcessSound (fleet : Fleet) (p : ℕ) (state : Boot) : Prop :=
  state.SetSound fleet p (state.pcs p).ring (state.pcs p).stage

theorem ProcessSound.of_loaded (hloaded : state.Loaded) (p : ℕ) :
    state.ProcessSound fleet p := by
  obtain ⟨htable, hthreads, hpcs⟩ := hloaded
  unfold ProcessSound
  rw [hpcs]
  constructor <;> simp [htable, hthreads, Stage.rank]

theorem ProcessSound.at {stage : Stage}
    (hsound : state.ProcessSound fleet p)
    (hpc : state.pcs p = ⟨r, stage⟩) :
    state.SetSound fleet p r stage := by
  unfold ProcessSound at hsound
  rwa [hpc] at hsound

theorem processSound_of_pc {stage : Stage}
    (hpc : state.pcs p = ⟨r, stage⟩)
    (hset : state.SetSound fleet p r stage) :
    state.ProcessSound fleet p := by
  unfold ProcessSound
  rwa [hpc]

theorem SetSound.slot_eq {stage : Stage}
    (hset : state.SetSound fleet p r stage) (hr : r < fleet.ratio)
    (hrank : 2 ≤ stage.rank) {slot : ℕ × ℕ}
    (htable : state.table (fleet.ringOf p r) = some slot) :
    slot = (fleet.headerFrame p, r) := by
  rw [hset.headed (Or.inr hrank) r hr] at htable
  exact (Option.some.inj htable).symm

/-! ## One step, seen from the other rings -/

theorem header_ne (fleet : Fleet) (hne : (q, s) ≠ (p, r)) :
    (fleet.headerFrame q, s) ≠ (fleet.headerFrame p, r) := by
  intro hequal
  obtain ⟨hframe, rfl⟩ := Prod.mk.inj hequal
  exact hne (by rw [Fleet.headerFrame_inj hframe])

theorem ringOf_ne (hs : s < fleet.ratio) (hr : r < fleet.ratio)
    (hne : (q, s) ≠ (p, r)) : fleet.ringOf q s ≠ fleet.ringOf p r := by
  intro hequal
  obtain ⟨rfl, rfl⟩ := Fleet.ringOf_inj hs hr hequal
  exact hne rfl

theorem clearEntries_of_ne (hmapped : state.Mapped fleet p r)
    (hne : (q, s) ≠ (p, r)) {j : ℕ} (hj : j < fleet.maxTableLen) :
    state.clearEntries fleet.toTableConfig (fleet.headerFrame p, r)
        (fleet.tableFrame q s j) =
      state.entries (fleet.tableFrame q s j) := by
  funext e
  unfold clearEntries
  rw [if_neg]
  rintro ⟨hmem, _⟩
  obtain ⟨i, hi, hframe⟩ := List.mem_map.mp hmem
  rw [List.mem_range] at hi
  rw [hmapped i hi] at hframe
  obtain ⟨rfl, rfl⟩ := Fleet.tableFrame_inj hi hj hframe
  exact hne rfl

/-- A step of process `p` at ring `r` touches no other ring. -/
theorem Move.sameRing (hmove : Move fleet state p r next)
    (hsound : state.ProcessSound fleet p) (hr : r < fleet.ratio)
    (hs : s < fleet.ratio) (hne : (q, s) ≠ (p, r)) :
    SameRing fleet q s state next := by
  have hheader := header_ne fleet hne
  have hring := ringOf_ne hs hr hne
  cases hmove with
  | pin => exact ⟨rfl, fun _ _ => rfl, rfl, rfl⟩
  | wait => exact ⟨rfl, fun _ _ => rfl, rfl, rfl⟩
  | mapHeader => exact ⟨rfl, fun _ _ => rfl, rfl, rfl⟩
  | mapTables slot hpc htable =>
      obtain rfl := (hsound.at hpc).slot_eq hr le_rfl htable
      exact ⟨Function.update_of_ne hheader _ _, fun _ _ => rfl, rfl, rfl⟩
  | initRing slot hpc htable =>
      have hset := hsound.at hpc
      obtain rfl := hset.slot_eq hr (by decide) htable
      exact ⟨Function.update_of_ne hheader _ _,
        fun j hj => clearEntries_of_ne (hset.mapped le_rfl) hne hj,
        Function.update_of_ne hring _ _, rfl⟩
  | create =>
      exact ⟨rfl, fun _ _ => rfl, rfl, Function.update_of_ne hring _ _⟩
  | finish =>
      exact ⟨Function.update_of_ne hheader _ _, fun _ _ => rfl, rfl, rfl⟩

theorem ringOf_mem_set_iff (hs : s < fleet.ratio) :
    (fleet.ringOf p 0 ≤ fleet.ringOf q s ∧
      fleet.ringOf q s < fleet.ringOf p 0 + fleet.ratio) ↔ q = p := by
  unfold Fleet.ringOf
  constructor
  · rintro ⟨hlow, hhigh⟩
    have habove : p * fleet.ratio < (q + 1) * fleet.ratio := by
      rw [Nat.succ_mul]
      zify
      omega
    have hbelow : q * fleet.ratio < (p + 1) * fleet.ratio := by
      rw [Nat.succ_mul]
      zify
      omega
    have hle := Nat.lt_of_mul_lt_mul_right habove
    have hge := Nat.lt_of_mul_lt_mul_right hbelow
    omega
  · rintro rfl
    omega

theorem mapHeader_table_self {page : ℕ} (hr : r < fleet.ratio) :
    (state.mapHeader fleet p page).table (fleet.ringOf p r) =
      some (page, r) := by
  refine (if_pos ((ringOf_mem_set_iff hr).mpr rfl)).trans ?_
  simp [Fleet.ringOf]

theorem mapHeader_table_of_ne {page : ℕ} (hne : q ≠ p)
    (hr : r < fleet.ratio) :
    (state.mapHeader fleet p page).table (fleet.ringOf q r) =
      state.table (fleet.ringOf q r) := by
  refine if_neg ?_
  rw [ringOf_mem_set_iff hr]
  exact hne

/-- Nor the header pointers of another process. -/
theorem Move.table_eq (hmove : Move fleet state p r next)
    (hne : q ≠ p) (hs : s < fleet.ratio) :
    next.table (fleet.ringOf q s) = state.table (fleet.ringOf q s) := by
  cases hmove with
  | mapHeader page => exact mapHeader_table_of_ne hne hs
  | _ => rfl

theorem Move.pcs_eq (hmove : Move fleet state p r next) (hne : q ≠ p) :
    next.pcs q = state.pcs q := by
  cases hmove <;> exact Function.update_of_ne hne _ _

theorem Move.sharedInfo_eq (hmove : Move fleet state p r next)
    (halone : state.PinsAlone fleet p) (hq : q < fleet.processes)
    (hpinned : (state.pcs q).stage = .pinned) :
    next.sharedInfo = state.sharedInfo := by
  cases hmove with
  | pin hpc => exact absurd hpinned (halone hpc q hq)
  | _ => rfl

theorem Move.foreign (hmove : Move fleet state p r next)
    (hr : r < fleet.ratio) (hown : state.ProcessSound fleet p)
    (halone : state.PinsAlone fleet p) (hq : q < fleet.processes)
    (hne : q ≠ p) (hsound : state.ProcessSound fleet q) :
    next.ProcessSound fleet q := by
  have hsame : ∀ s < fleet.ratio, SameRing fleet q s state next :=
    fun s hs => hmove.sameRing hown hr hs
      (fun hequal => hne (Prod.mk.inj hequal).1)
  have htable : ∀ s < fleet.ratio, next.table (fleet.ringOf q s) =
      state.table (fleet.ringOf q s) :=
    fun s hs => hmove.table_eq hne hs
  unfold ProcessSound at hsound ⊢
  rw [hmove.pcs_eq hne]
  have hring := hsound.ring_le
  exact
    { ring_le := hring
      inside := hsound.inside
      pinned := fun hpinned =>
        ⟨(hsound.pinned hpinned).1,
          (hmove.sharedInfo_eq halone hq hpinned).trans
            (hsound.pinned hpinned).2⟩
      headed := fun hpoint s hs =>
        (htable s hs).trans (hsound.headed hpoint s hs)
      unset := fun hzero hrank s hs =>
        (htable s hs).trans (hsound.unset hzero hrank s hs)
      ready := fun s hs =>
        (hsame s (hs.trans_le hring)).ready (hsound.ready s hs)
      mapped := fun hrank =>
        (hsame _ (hsound.inside (by omega))).mapped (hsound.mapped hrank)
      cleared := fun hrank =>
        (hsame _ (hsound.inside (by omega))).cleared (hsound.cleared hrank)
      created := fun hcreated =>
        (hsame _ (hsound.inside (by rw [hcreated]; decide))).threads.trans
          (hsound.created hcreated)
      fresh := fun s hs hpoint =>
        (hsame s hs).threads.trans (hsound.fresh s hs hpoint)
      failed := hsound.failed }

/-! ## One step, seen from its own ring -/

namespace SetSound

theorem afterPin (hset : state.SetSound fleet p 0 .entering)
    (hheader : fleet.headerAllocated p = true) :
    (state.pinHeader fleet p).SetSound fleet p 0 .pinned where
  ring_le := hset.ring_le
  inside := fun _ => fleet.ratio_pos
  pinned := fun _ => ⟨rfl, fleet.sharedInfoPinnedPages_eq p⟩
  headed := by simp [Stage.rank]
  unset := fun _ _ => hset.unset rfl (by decide)
  ready := nofun
  mapped := by simp [Stage.rank]
  cleared := by simp [Stage.rank]
  created := nofun
  fresh := fun s hs hpoint => hset.fresh s hs (by simpa using hpoint)
  failed := by simp [hheader]

theorem afterWait (hset : state.SetSound fleet p r .entering)
    (hr : r < fleet.ratio)
    (htable : (state.table (fleet.ringOf p r)).isSome) :
    (state.setPc p r .headed).SetSound fleet p r .headed := by
  have hne : r ≠ 0 := by
    rintro rfl
    rw [hset.unset rfl (by decide) 0 hr] at htable
    contradiction
  exact
    { ring_le := hset.ring_le
      inside := fun _ => hr
      pinned := nofun
      headed := fun _ => hset.headed (Or.inl hne)
      unset := fun hzero => absurd hzero hne
      ready := fun s hs =>
        have hsame : SameRing fleet p s state (state.setPc p r .headed) :=
          ⟨rfl, fun _ _ => rfl, rfl, rfl⟩
        hsame.ready (hset.ready s hs)
      mapped := by simp [Stage.rank]
      cleared := by simp [Stage.rank]
      created := nofun
      fresh := fun s hs hpoint => hset.fresh s hs (by simpa using hpoint)
      failed := fun hfailed => absurd (hset.failed hfailed).1 hne }

theorem afterMapHeader (hset : state.SetSound fleet p r .pinned)
    {page : ℕ} (hinfo : state.sharedInfo = some page) :
    (state.mapHeader fleet p page).SetSound fleet p 0 .headed := by
  obtain ⟨rfl, hpage⟩ := hset.pinned rfl
  rw [hinfo] at hpage
  cases hpage
  exact
    { ring_le := hset.ring_le
      inside := fun _ => fleet.ratio_pos
      pinned := nofun
      headed := fun _ _ hs => mapHeader_table_self hs
      unset := by simp [Stage.rank]
      ready := nofun
      mapped := by simp [Stage.rank]
      cleared := by simp [Stage.rank]
      created := nofun
      fresh := fun s hs hpoint => hset.fresh s hs (by simpa using hpoint)
      failed := fun hfailed => by simpa using (hset.failed hfailed).2 }

/-- The later stages of a ring leave the header pointers and the other rings
alone. -/
theorem afterStage {stage later : Stage}
    (hset : state.SetSound fleet p r stage) (hrank : 2 ≤ stage.rank)
    (hlater : 2 ≤ later.rank)
    (htable : ∀ s < fleet.ratio, next.table (fleet.ringOf p s) =
      state.table (fleet.ringOf p s))
    (hsame : ∀ s < fleet.ratio, s ≠ r → SameRing fleet p s state next)
    (hmapped : next.Mapped fleet p r)
    (hcleared : 4 ≤ later.rank → next.Cleared fleet p r)
    (hthreads : next.threads (fleet.ringOf p r) =
      if later = .created then 1 else 0) :
    next.SetSound fleet p r later where
  ring_le := hset.ring_le
  inside := fun _ => hset.inside (by omega)
  pinned := by
    rintro rfl
    simp [Stage.rank] at hlater
  headed := fun _ s hs =>
    (htable s hs).trans (hset.headed (Or.inr hrank) s hs)
  unset := fun _ hle => by omega
  ready := fun s hs =>
    (hsame s (hs.trans_le hset.ring_le) (by omega)).ready (hset.ready s hs)
  mapped := fun _ => hmapped
  cleared := hcleared
  created := fun hcreated => by rw [hthreads, if_pos hcreated]
  fresh := by
    rintro s hs (hlt | ⟨rfl, hnot⟩)
    · exact (hsame s hs (by omega)).threads.trans
        (hset.fresh s hs (Or.inl hlt))
    · rw [hthreads, if_neg hnot]
  failed := by
    intro hfailed
    rw [(hset.failed hfailed).2] at hrank
    simp [Stage.rank] at hrank

theorem fresh_self {stage : Stage}
    (hset : state.SetSound fleet p r stage) (hr : r < fleet.ratio)
    (hstage : stage ≠ .created) :
    state.threads (fleet.ringOf p r) = 0 :=
  hset.fresh r hr (Or.inr ⟨rfl, hstage⟩)

theorem afterMapTables (hset : state.SetSound fleet p r .headed)
    (hr : r < fleet.ratio)
    (hsame : ∀ s < fleet.ratio, s ≠ r → SameRing fleet p s state
      (state.mapTables fleet p r (fleet.headerFrame p, r))) :
    (state.mapTables fleet p r (fleet.headerFrame p, r)).SetSound
      fleet p r .mapped := by
  refine hset.afterStage le_rfl (by decide) (fun _ _ => rfl) hsame ?_
    (by simp [Stage.rank]) (hset.fresh_self hr (by decide))
  intro j hj
  simp [mapTables, Fleet.tablePinnedPages_eq hj]

theorem afterInitRing (hset : state.SetSound fleet p r .mapped)
    (hr : r < fleet.ratio)
    (hsame : ∀ s < fleet.ratio, s ≠ r → SameRing fleet p s state
      (state.initRing fleet p r (fleet.headerFrame p, r))) :
    (state.initRing fleet p r (fleet.headerFrame p, r)).SetSound
      fleet p r .cleared := by
  have hmapped := hset.mapped le_rfl
  refine hset.afterStage (by decide) (by decide) (fun _ _ => rfl) hsame
    ?_ ?_ (hset.fresh_self hr (by decide))
  · intro j hj
    simp [initRing, hmapped j hj]
  · intro _
    constructor <;> simp [initRing]
    intro j hj e he
    unfold clearEntries
    rw [if_pos]
    refine ⟨List.mem_map.mpr ⟨j, List.mem_range.mpr hj, ?_⟩, he⟩
    exact hmapped j hj

theorem afterCreate (hset : state.SetSound fleet p r .cleared)
    (hr : r < fleet.ratio)
    (hsame : ∀ s < fleet.ratio, s ≠ r → SameRing fleet p s state
      (state.createWorker fleet p r)) :
    (state.createWorker fleet p r).SetSound fleet p r .created := by
  have hcleared := hset.cleared le_rfl
  refine hset.afterStage (by decide) (by decide) (fun _ _ => rfl) hsame
    (hset.mapped (by decide)) (fun _ => ?_) ?_
  · exact { hcleared with }
  · simp [createWorker, hset.fresh_self hr (by decide)]

/-- Back in user space the ring is complete. -/
theorem afterFinish (hset : state.SetSound fleet p r .created)
    (hr : r < fleet.ratio)
    (hsame : ∀ s < fleet.ratio, s ≠ r → SameRing fleet p s state
      (state.storeUserTables fleet p r)) :
    (state.storeUserTables fleet p r).SetSound fleet p (r + 1)
      .entering where
  ring_le := hr
  inside := by simp [Stage.rank]
  pinned := nofun
  headed := fun _ => hset.headed (Or.inr (by decide))
  unset := nofun
  ready := by
    intro s hs
    by_cases hequal : s = r
    · subst s
      have hcleared := hset.cleared (by decide)
      refine ⟨?_, ?_, ?_, hset.created rfl⟩
      · intro j hj
        simp [storeUserTables, hset.mapped (by decide) j hj]
      · constructor <;>
        simp [storeUserTables, setPc, hcleared.submitted,
          hcleared.headTable, hcleared.tailTable, hcleared.headEntry,
          hcleared.tailEntry, hcleared.idleTime, hcleared.flags]
        exact hcleared.status
      · intro j hj
        simp [storeUserTables, hj]
    · have hlt : s < r := by omega
      exact (hsame s (hlt.trans hr) hequal).ready (hset.ready s hlt)
  mapped := by simp [Stage.rank]
  cleared := by simp [Stage.rank]
  created := nofun
  fresh := by
    intro s hs hpoint
    refine hset.fresh s hs (Or.inl ?_)
    omega
  failed := fun hfailed => by simpa using (hset.failed hfailed).2

end SetSound

theorem Move.own (hmove : Move fleet state p r next)
    (hr : r < fleet.ratio) (hsound : state.ProcessSound fleet p) :
    next.ProcessSound fleet p := by
  have hsame : ∀ s < fleet.ratio, s ≠ r →
      SameRing fleet p s state next :=
    fun s hs hne => hmove.sameRing hsound hr hs
      (fun hequal => hne (Prod.mk.inj hequal).2)
  cases hmove with
  | pin hpc _ hheader =>
      exact processSound_of_pc (Function.update_self ..)
        ((hsound.at hpc).afterPin hheader)
  | wait hpc htable =>
      exact processSound_of_pc (Function.update_self ..)
        ((hsound.at hpc).afterWait hr htable)
  | mapHeader page hpc hinfo =>
      exact processSound_of_pc (Function.update_self ..)
        ((hsound.at hpc).afterMapHeader hinfo)
  | mapTables slot hpc htable =>
      have hset := hsound.at hpc
      obtain rfl := hset.slot_eq hr le_rfl htable
      exact processSound_of_pc (Function.update_self ..)
        (hset.afterMapTables hr hsame)
  | initRing slot hpc htable =>
      have hset := hsound.at hpc
      obtain rfl := hset.slot_eq hr (by decide) htable
      exact processSound_of_pc (Function.update_self ..)
        (hset.afterInitRing hr hsame)
  | create hpc =>
      exact processSound_of_pc (Function.update_self ..)
        ((hsound.at hpc).afterCreate hr hsame)
  | finish hpc =>
      exact processSound_of_pc (Function.update_self ..)
        ((hsound.at hpc).afterFinish hr hsame)

/-! ## Every interleaving -/

def Sound (fleet : Fleet) (state : Boot) : Prop :=
  ∀ p < fleet.processes, state.ProcessSound fleet p

theorem Sound.afterStep (hsound : state.Sound fleet)
    (halone : state.PinsAlone fleet p)
    (hstep : state.step fleet p = some next) : next.Sound fleet := by
  obtain ⟨hp, r, hr, hmove⟩ := step_move hstep
  intro q hq
  by_cases hne : q = p
  · subst q
    exact hmove.own hr (hsound p hp)
  · exact hmove.foreign hr (hsound p hp) halone hq hne (hsound q hq)

/-- The worker of a ring that is handed over starts from a registered
ring. -/
theorem Ready.workerOf_eq (hready : state.Ready fleet p r)
    (htable : state.table (fleet.ringOf p r) =
      some (fleet.headerFrame p, r)) :
    state.workerOf (fleet.ringOf p r) =
      some (KernelWorker.register fleet.toTableConfig fun i j =>
        state.entries
          ((state.headers (fleet.headerFrame p, r)).tables i) j) := by
  have hcleared := hready.cleared
  have hentries : ∀ i j,
      (if i < fleet.maxTableLen ∧ j < fleet.maxTableEntry then
        { state.entries ((state.headers
            (fleet.headerFrame p, r)).tables i) j with rstatus := .empty }
      else state.entries ((state.headers
        (fleet.headerFrame p, r)).tables i) j) =
      state.entries ((state.headers
        (fleet.headerFrame p, r)).tables i) j := by
    intro i j
    split
    next hslot =>
      have hstatus := hcleared.status i hslot.1 j hslot.2
      rw [← hready.mapped i hslot.1] at hstatus
      rw [← hstatus]
    next => rfl
  simp only [workerOf, htable, KernelWorker.register, sysEscaRegister,
    RingBase.register, hentries, hcleared.headTable, hcleared.tailTable,
    hcleared.headEntry, hcleared.tailEntry, hcleared.submitted,
    hcleared.flags]

/-- The two sides reach the same entries exactly if the layout lets them. -/
theorem Ready.sameTables_iff (hready : state.Ready fleet p r) :
    (state.headers (fleet.headerFrame p, r)).SameTables
        fleet.toSetConfig (fleet.memory p) ↔
      fleet.SharesEntries := by
  rw [← SetMemory.entryBytes_agree_iff fleet.toSetConfig
    (fleet.memory p) r]
  refine forall₂_congr fun i hi => ?_
  rw [hready.mapped i hi, hready.userTables i hi]
  unfold SetMemory.kernelEntryByte SetMemory.userEntryByte
  rw [Fleet.tablePinnedPages_eq hi]

theorem ProcessSound.step_isSome (hsound : state.ProcessSound fleet p)
    (hp : p < fleet.processes)
    (hheader : fleet.headerAllocated p = true)
    (hallocated : ∀ r < fleet.ratio, fleet.allocated p r = true)
    (hnot : ¬ state.Done fleet p) : (state.step fleet p).isSome := by
  generalize hpc : state.pcs p = pc
  obtain ⟨r, stage⟩ := pc
  have hset := hsound.at hpc
  have hr : r < fleet.ratio := by
    cases stage with
    | entering =>
        refine lt_of_le_of_ne hset.ring_le ?_
        rintro rfl
        exact hnot hpc
    | _ => exact hset.inside (by decide)
  have htable : 2 ≤ stage.rank → state.table (fleet.ringOf p r) =
      some (fleet.headerFrame p, r) :=
    fun hrank => hset.headed (Or.inr hrank) r hr
  unfold step
  rw [hpc, if_pos ⟨hp, hr⟩]
  cases stage with
  | entering =>
      simp only [stepAt, enter, hallocated r hr, hheader,
        Bool.true_eq_false, if_false, and_true]
      split
      next => rfl
      next hne =>
        rw [hset.headed (Or.inl hne) r hr]
        rfl
  | pinned =>
      simp only [stepAt, (hset.pinned rfl).2]
      rfl
  | headed =>
      simp only [stepAt, htable (by decide)]
      rfl
  | mapped =>
      simp only [stepAt, htable (by decide)]
      rfl
  | cleared => rfl
  | created => rfl

theorem run_sound {start : Boot} {actions : List ℕ}
    (hloaded : start.Loaded)
    (hrun : Transition.run (step fleet) start actions = some state)
    (halone : Transition.StepsMeet (step fleet) (PinsAlone fleet) start
      actions) : state.Sound fleet :=
  Transition.run_invariant
    (fun _ _ _ hsound halone hstep => Sound.afterStep hsound halone hstep)
    (fun p _ => ProcessSound.of_loaded hloaded p) hrun halone

theorem ProcessSound.of_done (hsound : state.ProcessSound fleet p)
    (hdone : state.Done fleet p) (hr : r < fleet.ratio) :
    state.Ready fleet p r ∧
      state.table (fleet.ringOf p r) = some (fleet.headerFrame p, r) := by
  have hset := hsound.at hdone
  exact ⟨hset.ready r hr, hset.headed (Or.inl (by omega)) r hr⟩

theorem ProcessSound.of_failed (hsound : state.ProcessSound fleet p)
    (hfailed : fleet.headerAllocated p = false) (hr : r < fleet.ratio) :
    state.table (fleet.ringOf p r) = none ∧
      state.threads (fleet.ringOf p r) = 0 := by
  generalize hpc : state.pcs p = pc
  obtain ⟨ring, stage⟩ := pc
  have hset := hsound.at hpc
  obtain ⟨rfl, rfl⟩ := hset.failed hfailed
  refine ⟨hset.unset rfl (by decide) r hr, hset.fresh r hr ?_⟩
  by_cases hzero : r = 0
  · exact Or.inr ⟨hzero.symm, by decide⟩
  · exact Or.inl (Nat.pos_of_ne_zero hzero)

/-- In every interleaving in which the header pins do not overlap, the rings
of the processes that are done are those from which the machine starts: each
is mapped from the pages of its own process, has one worker, and is reached by
both sides through the same entries exactly if the layout shares them.  A
process whose allocations succeed is never stuck, and one without a header page
registers nothing. -/
theorem registration_reaches_machine {κ μ : Type}
    (dep : Deployment κ μ)
    (hdep : dep.toTableConfig = fleet.toTableConfig)
    (memory : ℕ → μ) {start : Boot} {actions : List ℕ}
    (hloaded : start.Loaded)
    (hrun : Transition.run (step fleet) start actions = some state)
    (halone : Transition.StepsMeet (step fleet) (PinsAlone fleet) start
      actions) :
    (∃ pages, ∀ p < fleet.processes, state.Done fleet p →
      ∀ r < fleet.ratio,
        state.workerOf (fleet.ringOf p r) =
          some ((Machine.init dep pages memory).workers
            (fleet.ringOf p r)) ∧
        state.table (fleet.ringOf p r) =
          some (fleet.headerFrame p, r) ∧
        state.threads (fleet.ringOf p r) = 1 ∧
        ∀ j < fleet.maxTableLen,
          (state.headers (fleet.headerFrame p, r)).tables j =
              fleet.tableFrame p r j ∧
            (state.headers (fleet.headerFrame p, r)).userTables j =
              (fleet.memory p).userTables fleet.toSetConfig r j) ∧
      (∀ p < fleet.processes, state.Done fleet p → ∀ r < fleet.ratio,
        ((state.headers (fleet.headerFrame p, r)).SameTables
            fleet.toSetConfig (fleet.memory p) ↔
          fleet.SharesEntries)) ∧
      ∀ p < fleet.processes,
        (fleet.headerAllocated p = true →
          (∀ r < fleet.ratio, fleet.allocated p r = true) →
            ¬ state.Done fleet p → (state.step fleet p).isSome) ∧
        (fleet.headerAllocated p = false → ∀ r < fleet.ratio,
          state.table (fleet.ringOf p r) = none ∧
            state.threads (fleet.ringOf p r) = 0) := by
  have hsound := run_sound hloaded hrun halone
  refine ⟨?_, ?_, ?_⟩
  · let pages : ℤ → ℕ → ℕ → TableEntry := fun k i j =>
      match state.table k with
      | none => state.entries i j
      | some slot => state.entries ((state.headers slot).tables i) j
    refine ⟨pages, ?_⟩
    intro p hp hdone r hr
    obtain ⟨hready, htable⟩ := (hsound p hp).of_done hdone hr
    refine ⟨?_, htable, hready.threads,
      fun j hj => ⟨hready.mapped j hj, hready.userTables j hj⟩⟩
    have hpages : pages (fleet.ringOf p r) = fun i j =>
        state.entries
          ((state.headers (fleet.headerFrame p, r)).tables i) j := by
      simp only [pages, htable]
    rw [hready.workerOf_eq htable, ← hpages, ← hdep]
    rfl
  · intro p hp hdone r hr
    exact ((hsound p hp).of_done hdone hr).1.sameTables_iff
  · intro p hp
    exact ⟨(hsound p hp).step_isSome hp,
      fun hfailed r hr => (hsound p hp).of_failed hfailed hr⟩

theorem takingTurns_reaches_machine :
    ∃ state pages,
      Transition.run (step twoProcesses) blank takingTurns =
        some state ∧
      (state.Done twoProcesses 0 ∧ state.Done twoProcesses 1) ∧
      ∀ p < 2, state.Done twoProcesses p → ∀ r < 1,
        state.workerOf (twoProcesses.ringOf p r) =
          some ((Machine.init ⟨oneWorkerSet, redis .x86⟩ pages
            fun _ => ()).workers (twoProcesses.ringOf p r)) ∧
        (state.headers (twoProcesses.headerFrame p, r)).SameTables
          oneWorkerSet (pairedMemory p) := by
  have hrun : Transition.run (step twoProcesses) blank takingTurns =
      some _ := rfl
  obtain ⟨⟨pages, hpages⟩, hsame, _⟩ := registration_reaches_machine
    ⟨oneWorkerSet, redis .x86⟩ rfl (fun _ => ())
    ⟨fun _ => rfl, fun _ => rfl, fun _ => rfl⟩ hrun (by decide +kernel)
  exact ⟨_, pages, hrun, by decide +kernel,
    fun p hp hdone r hr => ⟨(hpages p hp hdone r hr).1,
      (hsame p hp hdone r hr).mpr (by decide)⟩⟩

end Boot

/-! ## Overlapping pins -/

/-- The process has mapped the headers of its set. -/
def BootPc.PastMapping (pc : BootPc) : Prop :=
  pc ≠ ⟨0, .entering⟩ ∧ pc.stage ≠ .pinned

instance (pc : BootPc) : Decidable pc.PastMapping :=
  inferInstanceAs (Decidable (_ ∧ _))

namespace Boot

variable {fleet : Fleet} {state next : Boot} {p q s t : ℕ}

/-- The rings of process `p` have the headers of process `s`. -/
def HeadersOf (fleet : Fleet) (s p : ℕ) (state : Boot) : Prop :=
  ∀ r < fleet.ratio,
    state.table (fleet.ringOf p r) = some (fleet.headerFrame s, r)

/-- Process `p` stands between its pin and its mapping and is about to map the
headers of process `s`, or has done so. -/
def Gets (fleet : Fleet) (s p : ℕ) (state : Boot) : Prop :=
  state.pcs p = ⟨0, .pinned⟩ ∧
      state.sharedInfo = some (fleet.headerFrame s) ∨
    (state.pcs p).PastMapping ∧ state.HeadersOf fleet s p

theorem Gets.headersOf (hgets : state.Gets fleet s p)
    (hpast : (state.pcs p).PastMapping) : state.HeadersOf fleet s p := by
  rcases hgets with ⟨hpc, _⟩ | ⟨_, hheaders⟩
  · rw [hpc] at hpast
    exact absurd rfl hpast.2
  · exact hheaders

/-- A process maps once, and what it maps is what has been pinned last. -/
theorem Gets.own (hgets : state.Gets fleet s p) {r : ℕ}
    (hmove : Move fleet state p r next) : next.Gets fleet s p := by
  have hpc : ∀ ring stage, (state.setPc p ring stage).pcs p =
      ⟨ring, stage⟩ := fun _ _ => Function.update_self ..
  rcases hgets with ⟨hpinned, hinfo⟩ | ⟨hpast, hheaders⟩
  · -- the only move of a process that has pinned its header
    right
    cases hmove with
    | mapHeader page _ hpage =>
        rw [hinfo] at hpage
        cases hpage
        refine ⟨?_, fun r hr => mapHeader_table_self hr⟩
        simp [BootPc.PastMapping, mapHeader, hpc]
    | pin hpc | wait hpc | mapTables _ hpc | initRing _ hpc
    | create hpc | finish hpc =>
        rw [hpinned] at hpc
        simp at hpc
  · right
    cases hmove with
    | pin hentering => exact absurd hentering hpast.1
    | mapHeader page hpinned =>
        rw [hpinned] at hpast
        exact absurd rfl hpast.2
    | wait | mapTables | initRing | create | finish =>
        refine ⟨?_, hheaders⟩
        simp [BootPc.PastMapping, mapTables, initRing, createWorker,
          storeUserTables, hpc]

/-- Steps of other processes matter only when they pin. -/
theorem Gets.foreign (hgets : state.Gets fleet s p) (hne : p ≠ t) {r : ℕ}
    (hmove : Move fleet state t r next) :
    next.Gets fleet s p ∨
      state.pcs p = ⟨0, .pinned⟩ ∧ state.pcs t = ⟨0, .entering⟩ ∧
        next.Gets fleet t p := by
  have hpcs : next.pcs p = state.pcs p := hmove.pcs_eq hne
  rcases hgets with ⟨hpinned, hinfo⟩ | ⟨hpast, hheaders⟩
  · cases hmove with
    | pin hentering =>
        exact Or.inr ⟨hpinned, hentering, Or.inl ⟨hpcs.trans hpinned,
          fleet.sharedInfoPinnedPages_eq t⟩⟩
    | wait | mapHeader | mapTables | initRing | create | finish =>
        exact Or.inl (Or.inl ⟨hpcs.trans hpinned, hinfo⟩)
  · refine Or.inl (Or.inr ⟨?_, ?_⟩)
    · rwa [hpcs]
    · intro r hr
      rw [hmove.table_eq hne hr]
      exact hheaders r hr

/-- A process that is overtaken once gets the headers of another one, whatever
is pinned later. -/
theorem overtaken_afterStep
    (hovertaken : ∃ s, s ≠ p ∧ state.Gets fleet s p)
    (hstep : state.step fleet t = some next) :
    ∃ s, s ≠ p ∧ next.Gets fleet s p := by
  obtain ⟨s, hs, hgets⟩ := hovertaken
  obtain ⟨_, r, _, hmove⟩ := step_move hstep
  by_cases hne : p = t
  · subst t
    exact ⟨s, hs, hgets.own hmove⟩
  · rcases hgets.foreign hne hmove with hsame | ⟨_, _, hother⟩
    · exact ⟨s, hs, hsame⟩
    · exact ⟨t, Ne.symm hne, hother⟩

theorem Gets.afterStep (hgets : state.Gets fleet s p)
    (hp : p < fleet.processes) (halone : state.PinsAlone fleet t)
    (hstep : state.step fleet t = some next) :
    next.Gets fleet s p := by
  obtain ⟨_, r, _, hmove⟩ := step_move hstep
  by_cases hne : p = t
  · subst t
    exact hgets.own hmove
  · rcases hgets.foreign hne hmove with hsame | ⟨hpinned, hentering, _⟩
    · exact hsame
    · exact absurd (by rw [hpinned]) (halone hentering p hp)

/-- Let process `q` pin its header while process `p` stands between its pin and
its mapping.  In every interleaving the rings of `p` then get the headers of
another process, and as long as no third pin overlaps, the rings of both get
the headers of `q`. -/
theorem overlapping_pins_share_headers {final : Boot}
    {actions : List ℕ} (hne : p ≠ q) (hp : p < fleet.processes)
    (hpinned : state.pcs p = ⟨0, .pinned⟩)
    (hpin : state.step fleet q = some next)
    (hoverlap : next.pcs q = ⟨0, .pinned⟩)
    (hrun : Transition.run (step fleet) next actions = some final)
    (hmapped : (final.pcs p).PastMapping) :
    (∃ s, s ≠ p ∧ final.HeadersOf fleet s p) ∧
      (Transition.StepsMeet (step fleet) (PinsAlone fleet) next actions →
        final.HeadersOf fleet q p ∧
          ((final.pcs q).PastMapping → final.HeadersOf fleet q q)) := by
  obtain ⟨hq, r, _, hmove⟩ := step_move hpin
  have hinfo : next.sharedInfo = some (fleet.headerFrame q) := by
    cases hmove with
    | pin => exact fleet.sharedInfoPinnedPages_eq q
    | wait | mapHeader | mapTables | initRing | create | finish =>
        simp [setPc, mapHeader, mapTables, initRing, createWorker,
          storeUserTables] at hoverlap
  have hgets : next.Gets fleet q p :=
    Or.inl ⟨(hmove.pcs_eq hne).trans hpinned, hinfo⟩
  constructor
  · have hkept : ∀ (state : Boot) (t : ℕ) (next : Boot),
        (∃ s, s ≠ p ∧ state.Gets fleet s p) → True →
          state.step fleet t = some next →
            ∃ s, s ≠ p ∧ next.Gets fleet s p :=
      fun _ _ _ hovertaken _ hstep => overtaken_afterStep hovertaken hstep
    obtain ⟨s, hs, hends⟩ := Transition.run_invariant hkept
      ⟨q, Ne.symm hne, hgets⟩ hrun (Transition.stepsMeet_true _ actions)
    exact ⟨s, hs, hends.headersOf hmapped⟩
  · intro halone
    have hkept : ∀ (state : Boot) (t : ℕ) (next : Boot),
        state.Gets fleet q p ∧ state.Gets fleet q q →
          state.PinsAlone fleet t → state.step fleet t = some next →
            next.Gets fleet q p ∧ next.Gets fleet q q :=
      fun _ _ _ hboth halone hstep =>
        ⟨hboth.1.afterStep hp halone hstep,
          hboth.2.afterStep hq halone hstep⟩
    obtain ⟨hfirst, hsecond⟩ := Transition.run_invariant hkept
      ⟨hgets, Or.inl ⟨hoverlap, hinfo⟩⟩ hrun halone
    exact ⟨hfirst.headersOf hmapped, hsecond.headersOf⟩

/-- The first process has pinned its header. -/
def firstPinned : Boot := blank.pinHeader twoProcesses 0

/-- The second process has pinned its header as well. -/
def bothPinned : Boot := firstPinned.pinHeader twoProcesses 1

theorem twoProcesses_share_headers :
    blank.step twoProcesses 0 = some firstPinned ∧
      firstPinned.step twoProcesses 1 = some bothPinned ∧
      ∃ final,
        Transition.run (step twoProcesses) bothPinned [0, 0, 1] =
          some final ∧
        final.HeadersOf twoProcesses 1 0 ∧
        final.HeadersOf twoProcesses 1 1 := by
  have hrun : Transition.run (step twoProcesses) bothPinned [0, 0, 1] =
      some _ := rfl
  have hshared := overlapping_pins_share_headers (by decide) (by decide)
    (show firstPinned.pcs 0 = ⟨0, .pinned⟩ by decide)
    (show firstPinned.step twoProcesses 1 = some bothPinned from rfl)
    (by decide) hrun (by decide)
  obtain ⟨hfirst, hsecond⟩ := hshared.2 (by decide)
  exact ⟨rfl, rfl, _, hrun, hfirst, hsecond (by decide)⟩

end Boot

end Saio
