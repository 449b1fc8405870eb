import Saio.RingModel
import Mathlib.Tactic

/-!
# The tail as two words

`tail_table` and `tail_entry` are two separate words.  When `update_index`
crosses a table it first stores the entry and then the table, and the worker
loads the two words one after the other, in either order.  Here each of these
accesses is a step of its own, and `written` is the history of the calls whose
slot has been filled.

A snapshot whose loads fall around a crossing can see a tail that never
existed, and then counts slots nobody has filled.  The invariant shows that
this is the only way to count too much: a snapshot that meets no crossing is a
position the tail really had since the batch began.
-/

namespace Saio

open CircularSlots

inductive TornProducerPc
  | idle
  | written (i j : ℕ) (call : SysCall)
  | crossing (i j : ℕ)
  | advanced (i j : ℕ)
  deriving DecidableEq

inductive TornWorkerPc
  | poll
  | snapshot
  | haveTable (tailTable : ℕ)
  | haveEntry (tailEntry : ℕ)
  | drain
  deriving DecidableEq

structure TornRing extends RingBase where
  producer : TornProducerPc
  worker : TornWorkerPc
  written : List Submission

inductive TornAction
  | write (call : SysCall)
  | advance
  | storeTable
  | storeBusy
  | poll
  | loadTable
  | loadEntry
  | execute
  | publish
  deriving DecidableEq

namespace TornRing

/-- The ring that `sys_esca_register` sets up, with both parties at rest. -/
def register
    (cfg : TableConfig) (memory : ℕ → ℕ → TableEntry) : TornRing where
  toRingBase := .register cfg memory
  producer := .idle
  worker := .poll
  written := []

def write (cfg : TableConfig) (ring : TornRing) (call : SysCall) :
    TornRing :=
  { ring with
    toRingBase := ring.fill cfg call
    producer := .written ring.table.tailTable ring.table.tailEntry call
    written := ring.written ++
      [⟨ring.table.tailTable, ring.table.tailEntry, call⟩] }

/-- The store of `tail_entry` in `update_index`. -/
def advance (cfg : TableConfig) (ring : TornRing) (i j : ℕ) : TornRing :=
  if ring.table.tailEntry = cfg.maxTableEntry - 1 then
    { ring with
      table := { ring.table with tailEntry := 0 }
      producer := .crossing i j }
  else
    { ring with
      table := { ring.table with tailEntry := ring.table.tailEntry + 1 }
      producer := .advanced i j }

/-- The store of `tail_table` that follows when a table is left. -/
def storeTable (cfg : TableConfig) (ring : TornRing) (i j : ℕ) :
    TornRing :=
  { ring with
    table :=
      { ring.table with
        tailTable :=
          if ring.table.tailTable = cfg.maxTableLen - 1 then 0
          else ring.table.tailTable + 1 }
    producer := .advanced i j }

def storeBusy (cfg : TableConfig) (ring : TornRing) (i j : ℕ) :
    TornRing :=
  { ring with
    toRingBase := ring.mark cfg i j
    producer := .idle }

def poll (ring : TornRing) : TornRing :=
  if ring.cursorEntry.rstatus = .empty then ring
  else { ring with worker := .snapshot }

/-- The second load of a snapshot completes it. -/
def takeBatch (cfg : TableConfig) (ring : TornRing)
    (tailTable tailEntry : ℕ) : TornRing :=
  { ring with
    toRingBase := ring.count cfg tailTable tailEntry
    worker := .drain }

def execute (cfg : TableConfig) (ring : TornRing) : TornRing :=
  { ring with toRingBase := ring.toRingBase.execute cfg }

def publish (ring : TornRing) : TornRing :=
  { ring with
    toRingBase := ring.toRingBase.publish
    worker := .poll }

def step (cfg : TableConfig) (ring : TornRing) :
    TornAction → Option TornRing
  | .write call =>
      match ring.producer with
      | .idle => some (ring.write cfg call)
      | _ => none
  | .advance =>
      match ring.producer with
      | .written i j _ =>
          if ring.table.SpinsFull then none
          else some (ring.advance cfg i j)
      | _ => none
  | .storeTable =>
      match ring.producer with
      | .crossing i j => some (ring.storeTable cfg i j)
      | _ => none
  | .storeBusy =>
      match ring.producer with
      | .advanced i j => some (ring.storeBusy cfg i j)
      | _ => none
  | .poll =>
      if ring.worker = .poll then some ring.poll else none
  | .loadTable =>
      match ring.worker with
      | .snapshot =>
          some { ring with worker := .haveTable ring.table.tailTable }
      | .haveEntry tailEntry =>
          some (ring.takeBatch cfg ring.table.tailTable tailEntry)
      | _ => none
  | .loadEntry =>
      match ring.worker with
      | .snapshot =>
          some { ring with worker := .haveEntry ring.table.tailEntry }
      | .haveTable tailTable =>
          some (ring.takeBatch cfg tailTable ring.table.tailEntry)
      | _ => none
  | .execute =>
      if ring.worker = .drain ∧ ring.submitted ≠ 0 then
        some (ring.execute cfg)
      else none
  | .publish =>
      if ring.worker = .drain ∧ ring.submitted = 0 then
        some ring.publish
      else none

def NoOverrun (cfg : TableConfig) (ring : TornRing)
    (action : TornAction) : Prop :=
  action = .advance →
    (ring.table.updateIndex cfg).tail ≠ ring.table.head

instance (cfg : TableConfig) (ring : TornRing) (action : TornAction) :
    Decidable (ring.NoOverrun cfg action) :=
  inferInstanceAs (Decidable (_ → _))

def midSnapshot (ring : TornRing) : Bool :=
  match ring.worker with
  | .haveTable _ => true
  | .haveEntry _ => true
  | _ => false

def midCrossing (ring : TornRing) : Bool :=
  match ring.producer with
  | .crossing _ _ => true
  | _ => false

/-- No table crossing meets a snapshot: the tail is not loaded between the two
stores of a crossing, and no crossing begins between the two loads of a
snapshot.  A ring of one table has nothing to tear. -/
def SnapshotClear (cfg : TableConfig) (ring : TornRing)
    (action : TornAction) : Prop :=
  cfg.maxTableLen = 1 ∨
    (action = .loadTable ∨ action = .loadEntry →
      ring.midCrossing = false) ∧
    (action = .advance →
      ring.table.tailEntry = cfg.maxTableEntry - 1 →
        ring.midSnapshot = false)

instance (cfg : TableConfig) (ring : TornRing) (action : TornAction) :
    Decidable (ring.SnapshotClear cfg action) :=
  inferInstanceAs (Decidable (_ ∨ _ ∧ _))

/-- The counter never exceeds the entries written and not yet executed, and
no more entries are executed than were written. -/
def CountsOnlyWritten (ring : TornRing) : Prop :=
  (ring.worker = .drain →
      ring.submitted ≤
        (ring.written.length : ℤ) - ring.executed.length) ∧
    ring.executed.length ≤ ring.written.length

/-! ## Inversion of the step function -/

variable {cfg : TableConfig} {ring next : TornRing}

theorem step_write {call : SysCall}
    (hstep : ring.step cfg (.write call) = some next) :
    ring.producer = .idle ∧ next = ring.write cfg call := by
  cases hproducer : ring.producer <;>
    simp only [step, hproducer, Option.some.injEq, reduceCtorEq]
      at hstep
  exact ⟨rfl, hstep.symm⟩

theorem step_advance
    (hstep : ring.step cfg .advance = some next) :
    ∃ i j call,
      ring.producer = .written i j call ∧
        next = ring.advance cfg i j := by
  cases hproducer : ring.producer <;>
    simp only [step, hproducer, Option.ite_none_left_eq_some,
      Option.some.injEq, reduceCtorEq] at hstep
  exact ⟨_, _, _, rfl, hstep.2.symm⟩

theorem step_storeTable
    (hstep : ring.step cfg .storeTable = some next) :
    ∃ i j,
      ring.producer = .crossing i j ∧
        next = ring.storeTable cfg i j := by
  cases hproducer : ring.producer <;>
    simp only [step, hproducer, Option.some.injEq, reduceCtorEq]
      at hstep
  exact ⟨_, _, rfl, hstep.symm⟩

theorem step_storeBusy
    (hstep : ring.step cfg .storeBusy = some next) :
    ∃ i j,
      ring.producer = .advanced i j ∧
        next = ring.storeBusy cfg i j := by
  cases hproducer : ring.producer <;>
    simp only [step, hproducer, Option.some.injEq, reduceCtorEq]
      at hstep
  exact ⟨_, _, rfl, hstep.symm⟩

theorem step_poll
    (hstep : ring.step cfg .poll = some next) :
    next = ring ∨ next = { ring with worker := .snapshot } := by
  simp only [step, Option.ite_none_right_eq_some, Option.some.injEq]
    at hstep
  obtain ⟨_, rfl⟩ := hstep
  unfold poll
  exact ite_eq_or_eq _ _ _

theorem step_loadTable
    (hstep : ring.step cfg .loadTable = some next) :
    (ring.worker = .snapshot ∧
        next = { ring with worker := .haveTable ring.table.tailTable }) ∨
      ∃ tailEntry,
        ring.worker = .haveEntry tailEntry ∧
          next = ring.takeBatch cfg ring.table.tailTable tailEntry := by
  cases hworker : ring.worker <;>
    simp only [step, hworker, Option.some.injEq, reduceCtorEq] at hstep
  · exact Or.inl ⟨rfl, hstep.symm⟩
  · exact Or.inr ⟨_, rfl, hstep.symm⟩

theorem step_loadEntry
    (hstep : ring.step cfg .loadEntry = some next) :
    (ring.worker = .snapshot ∧
        next = { ring with worker := .haveEntry ring.table.tailEntry }) ∨
      ∃ tailTable,
        ring.worker = .haveTable tailTable ∧
          next = ring.takeBatch cfg tailTable ring.table.tailEntry := by
  cases hworker : ring.worker <;>
    simp only [step, hworker, Option.some.injEq, reduceCtorEq] at hstep
  · exact Or.inl ⟨rfl, hstep.symm⟩
  · exact Or.inr ⟨_, rfl, hstep.symm⟩

theorem step_execute
    (hstep : ring.step cfg .execute = some next) :
    ring.worker = .drain ∧ ring.submitted ≠ 0 ∧
      next = ring.execute cfg := by
  simp only [step, Option.ite_none_right_eq_some, Option.some.injEq]
    at hstep
  exact ⟨hstep.1.1, hstep.1.2, hstep.2.symm⟩

theorem step_publish
    (hstep : ring.step cfg .publish = some next) :
    next = ring.publish := by
  simp only [step, Option.ite_none_right_eq_some, Option.some.injEq]
    at hstep
  exact hstep.2.symm

end TornRing

end Saio
