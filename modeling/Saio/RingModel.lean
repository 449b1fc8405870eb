import Saio.SharedTable
import Saio.FifoChannel
import Mathlib.Tactic

/-!
# One ring: the wrapped calls against the batch loop

The state of a ring joins the shared table with the control points of its two
parties.  A wrapped call fills the slot at the tail in `user_tables`, leaves
the spin of `update_index` and advances the tail in one step, and only then
stores `BENTRY_BUSY` into the slot it filled.  The worker polls the status of
its head slot in `tables`, takes one snapshot of the tail, executes that many
entries, and publishes the head after the whole batch.

`issued` and `executed` are the history of the ring: the calls whose tail
advance has happened, each with the slot it was filled into, and the system
calls the worker has made.
-/

namespace Saio

structure Submission where
  table : ℕ
  entry : ℕ
  call : SysCall
  deriving DecidableEq

def Submission.slot (submission : Submission) : ℕ × ℕ :=
  (submission.table, submission.entry)

/-- Executing the call of the next submission extends the executed calls by
one position of the issued ones. -/
theorem Submission.delivered_append
    {issued : List Submission} {executed : List SysCall} {call : SysCall}
    (hdelivered :
      executed = (issued.take executed.length).map Submission.call)
    (hlt : executed.length < issued.length)
    (hcall : ∀ submission, issued[executed.length]? = some submission →
      call = submission.call) :
    executed ++ [call] =
      (issued.take (executed.length + 1)).map Submission.call := by
  rw [List.take_succ_eq_append_getElem hlt, List.map_append,
    ← hdelivered, hcall _ (List.getElem?_eq_getElem hlt)]
  rfl

/-- Where a wrapped call stands; `i` and `j` are its local copies of the
tail. -/
inductive ProducerPc
  | idle
  | written (i j : ℕ) (call : SysCall)
  | advanced (i j : ℕ)
  deriving DecidableEq

inductive WorkerPc
  | poll
  | snapshot
  | drain
  deriving DecidableEq

/-- The shared table with the worker's cursor, its counter and the system
calls it has made.  How finely the two parties access the index words is left
to the models built on it. -/
structure RingBase where
  table : EscaTable
  i : ℕ
  j : ℕ
  submitted : ℤ
  executed : List SysCall

namespace RingBase

def cursor (base : RingBase) : ℕ × ℕ :=
  (base.i, base.j)

def cursorEntry (base : RingBase) : TableEntry :=
  base.table.entryAt base.cursor

/-- The ring as `sys_esca_register` leaves it, over whatever the freshly
allocated pages contain. -/
def register (cfg : TableConfig) (memory : ℕ → ℕ → TableEntry) :
    RingBase where
  table :=
    { pages := fun i j =>
        if i < cfg.maxTableLen ∧ j < cfg.maxTableEntry then
          { memory i j with rstatus := .empty }
        else
          memory i j
      headTable := 0
      tailTable := 0
      headEntry := 0
      tailEntry := 0 }
  i := 0
  j := 0
  submitted := 0
  executed := []

/-- The slot at the tail is filled. -/
def fill (cfg : TableConfig) (base : RingBase) (call : SysCall) :
    RingBase :=
  { base with table := base.table.fillUser cfg base.table.tail call }

def mark (cfg : TableConfig) (base : RingBase) (i j : ℕ) : RingBase :=
  { base with table := base.table.markUser cfg (i, j) }

/-- The counter of a batch up to a snapshot of the tail. -/
def count (cfg : TableConfig) (base : RingBase)
    (tailTable tailEntry : ℕ) : RingBase :=
  { base with
    submitted :=
      toShort (batchCount cfg base.i base.j tailTable tailEntry) }

def execute (cfg : TableConfig) (base : RingBase) : RingBase :=
  { base with
    table := base.table.setStatus base.cursor .empty
    i := (advanceCursor cfg base.i base.j).1
    j := (advanceCursor cfg base.i base.j).2
    submitted := toShort (base.submitted - 1)
    executed := base.executed ++ [base.cursorEntry.call] }

def publish (base : RingBase) : RingBase :=
  { base with
    table :=
      { base.table with headTable := base.i, headEntry := base.j } }

@[simp] theorem execute_executed (cfg : TableConfig) (base : RingBase) :
    (base.execute cfg).executed =
      base.executed ++ [base.cursorEntry.call] := rfl

end RingBase

structure Ring extends RingBase where
  producer : ProducerPc
  worker : WorkerPc
  issued : List Submission

inductive RingAction
  | write (call : SysCall)
  | advance
  | storeBusy
  | poll
  | snapshot
  | execute
  | publish
  deriving DecidableEq

/-- The ring as `sys_esca_register` leaves it, with both parties at rest. -/
def sysEscaRegister
    (cfg : TableConfig) (memory : ℕ → ℕ → TableEntry) : Ring where
  toRingBase := .register cfg memory
  producer := .idle
  worker := .poll
  issued := []

namespace Ring

/-- The submissions that are not executed yet. -/
def pending (ring : Ring) : List Submission :=
  ring.issued.drop ring.executed.length

def write (cfg : TableConfig) (ring : Ring) (call : SysCall) : Ring :=
  { ring with
    toRingBase := ring.fill cfg call
    producer := .written ring.table.tailTable ring.table.tailEntry call }

def advance (cfg : TableConfig) (ring : Ring)
    (i j : ℕ) (call : SysCall) : Ring :=
  { ring with
    table := ring.table.updateIndex cfg
    producer := .advanced i j
    issued := ring.issued ++ [⟨i, j, call⟩] }

def storeBusy (cfg : TableConfig) (ring : Ring) (i j : ℕ) : Ring :=
  { ring with
    toRingBase := ring.mark cfg i j
    producer := .idle }

def poll (ring : Ring) : Ring :=
  if ring.cursorEntry.rstatus = .empty then ring
  else { ring with worker := .snapshot }

def snapshot (cfg : TableConfig) (ring : Ring) : Ring :=
  { ring with
    toRingBase := ring.count cfg ring.table.tailTable ring.table.tailEntry
    worker := .drain }

def execute (cfg : TableConfig) (ring : Ring) : Ring :=
  { ring with toRingBase := ring.toRingBase.execute cfg }

def publish (ring : Ring) : Ring :=
  { ring with
    toRingBase := ring.toRingBase.publish
    worker := .poll }

def step (cfg : TableConfig) (ring : Ring) : RingAction → Option Ring
  | .write call =>
      match ring.producer with
      | .idle => some (ring.write cfg call)
      | _ => none
  | .advance =>
      match ring.producer with
      | .written i j call =>
          if ring.table.SpinsFull then none
          else some (ring.advance cfg i j call)
      | _ => none
  | .storeBusy =>
      match ring.producer with
      | .advanced i j => some (ring.storeBusy cfg i j)
      | _ => none
  | .poll =>
      if ring.worker = .poll then some ring.poll else none
  | .snapshot =>
      if ring.worker = .snapshot then some (ring.snapshot cfg) else none
  | .execute =>
      if ring.worker = .drain ∧ ring.submitted ≠ 0 then
        some (ring.execute cfg)
      else none
  | .publish =>
      if ring.worker = .drain ∧ ring.submitted = 0 then
        some ring.publish
      else none

/-! ## Inversion of the step function -/

variable {cfg : TableConfig} {ring next : Ring}

theorem step_write {call : SysCall}
    (hstep : ring.step cfg (.write call) = some next) :
    ring.producer = .idle ∧ next = ring.write cfg call := by
  cases hproducer : ring.producer <;>
    simp only [step, hproducer, Option.some.injEq, reduceCtorEq]
      at hstep
  exact ⟨rfl, hstep.symm⟩

theorem step_advance
    (hstep : ring.step cfg .advance = some next) :
    ∃ i j call,
      ring.producer = .written i j call ∧
      ¬ ring.table.SpinsFull ∧
      next = ring.advance cfg i j call := by
  cases hproducer : ring.producer <;>
    simp only [step, hproducer, Option.ite_none_left_eq_some,
      Option.some.injEq, reduceCtorEq] at hstep
  exact ⟨_, _, _, rfl, hstep.1, hstep.2.symm⟩

theorem step_storeBusy
    (hstep : ring.step cfg .storeBusy = some next) :
    ∃ i j,
      ring.producer = .advanced i j ∧
        next = ring.storeBusy cfg i j := by
  cases hproducer : ring.producer <;>
    simp only [step, hproducer, Option.some.injEq, reduceCtorEq]
      at hstep
  exact ⟨_, _, rfl, hstep.symm⟩

theorem step_poll
    (hstep : ring.step cfg .poll = some next) :
    ring.worker = .poll ∧
      (next = ring ∨
        ring.cursorEntry.rstatus = .busy ∧
          next = { ring with worker := .snapshot }) := by
  simp only [step, Option.ite_none_right_eq_some, Option.some.injEq]
    at hstep
  obtain ⟨hworker, rfl⟩ := hstep
  refine ⟨hworker, ?_⟩
  unfold poll
  cases hstatus : ring.cursorEntry.rstatus with
  | empty => exact Or.inl rfl
  | busy => exact Or.inr ⟨rfl, rfl⟩

theorem step_snapshot
    (hstep : ring.step cfg .snapshot = some next) :
    ring.worker = .snapshot ∧ next = ring.snapshot cfg := by
  simp only [step, Option.ite_none_right_eq_some, Option.some.injEq]
    at hstep
  exact ⟨hstep.1, hstep.2.symm⟩

theorem step_execute
    (hstep : ring.step cfg .execute = some next) :
    ring.worker = .drain ∧ ring.submitted ≠ 0 ∧
      next = ring.execute cfg := by
  simp only [step, Option.ite_none_right_eq_some, Option.some.injEq]
    at hstep
  exact ⟨hstep.1.1, hstep.1.2, hstep.2.symm⟩

theorem step_publish
    (hstep : ring.step cfg .publish = some next) :
    ring.worker = .drain ∧ ring.submitted = 0 ∧
      next = ring.publish := by
  simp only [step, Option.ite_none_right_eq_some, Option.some.injEq]
    at hstep
  exact ⟨hstep.1.1, hstep.1.2, hstep.2.symm⟩

/-- A step that does not advance the tail onto the published head. -/
def NoOverrun (cfg : TableConfig) (ring : Ring) (action : RingAction) :
    Prop :=
  action = .advance →
    (ring.table.updateIndex cfg).tail ≠ ring.table.head

instance (cfg : TableConfig) (ring : Ring) (action : RingAction) :
    Decidable (ring.NoOverrun cfg action) :=
  inferInstanceAs (Decidable (_ → _))

end Ring

/-! ## Small rings for concrete runs -/

def blankMemory : ℕ → ℕ → TableEntry := fun _ _ =>
  { nargs := 0, rstatus := .empty, sysnum := 0, args := fun _ => 0 }

def threeEntryTable : TableConfig where
  maxTableEntry := 3
  maxTableLen := 1
  entry_pos := by decide
  len_pos := by decide

/-- Two tables that do not fill their pages. -/
def twoTables : TableConfig where
  maxTableEntry := 3
  maxTableLen := 2
  entry_pos := threeEntryTable.entry_pos
  len_pos := Nat.two_pos

/-- Two tables that fill their pages. -/
def fullTables : TableConfig where
  maxTableEntry := 64
  maxTableLen := 2
  entry_pos := Nat.succ_pos 63
  len_pos := Nat.two_pos

/-- The dimensions of `default_config`. -/
def defaultTable : TableConfig where
  maxTableEntry := 64
  maxTableLen := 1
  entry_pos := Nat.succ_pos 63
  len_pos := Nat.one_pos

def closeCall (fd : ℤ) : SysCall where
  sysnum := 3
  args := [fd]
  args_le := SysCall.singleton_le fd

/-- Wrapped calls, each made to its end. -/
def closeAll (fds : List ℤ) : List RingAction :=
  fds.flatMap fun fd => [.write (closeCall fd), .advance, .storeBusy]

/-- The worker polls a busy slot and executes a batch of this size. -/
def drainBatch (size : ℕ) : List RingAction :=
  [.poll, .snapshot] ++ List.replicate size .execute ++ [.publish]

/-- The second call is executed between its tail advance and its status
store. -/
def earlyBatch : List RingAction :=
  closeAll [5] ++ [.write (closeCall 6), .advance] ++ drainBatch 2 ++
    [.storeBusy]

end Saio
