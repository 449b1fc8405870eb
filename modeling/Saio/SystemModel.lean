import Saio.KernelWorker
import Mathlib.Tactic

/-!
# One user worker and its set of kernel workers

The user worker runs the application and the wrapper library.  `batch_start`
opens a segment and goes through the rings of the set, waking the workers that
advertise `ESCA_WORKER_NEED_WAKEUP`.  Inside a segment a wrapped call is
queued on the ring that its descriptor selects, outside it is passed on to the
C library.  `batch_flush` closes the segment and calls `sys_esca_wait`.

Each kernel worker of the set drains its own ring.  The first worker of the
set looks through the counters `submitted` after every entry it has executed,
and signals `wq` when all of them are zero.

What a wrapped call puts into its entry, and what it does to the memory of the
process, is left to a `Wrapper`; `issued` and `executed` are the history of
the whole set, in the order of the tail advances and of the executions.
-/

namespace Saio

/-- The calls `κ` that a target's preload file wraps, over a process memory
`μ`. -/
structure Wrapper (κ μ : Type) where
  /-- The descriptor by which the call is routed to a ring. -/
  descriptor : κ → ℤ
  /-- The entry filled at slot `(i, j)` of ring `idx`, and the memory after
  the call.  The memory the library alone looks at is updated here at once. -/
  prepare : TableConfig → κ → μ → ℤ → ℕ → ℕ → SysCall × μ
  /-- What the kernel writes to the memory when it executes an entry. -/
  perform : SysCall → ℤ → μ → μ

/-- A user worker's share of the configuration. -/
structure SetConfig extends TableConfig where
  ratio : ℕ
  ratio_pos : 0 < ratio
  thisWorkerId : ℕ

structure Deployment (κ μ : Type) extends SetConfig where
  wrapper : Wrapper κ μ

inductive UserPc (κ : Type)
  | ready
  | startTest (j : ℤ)
  | startSet (j : ℤ)
  | startSetLoaded (j : ℤ) (flags : BitVec 32)
  | wakeupTest (j : ℤ)
  | wakeup (j : ℤ)
  | startClear (j : ℤ)
  | startClearLoaded (j : ℤ) (flags : BitVec 32)
  | advancing (idx : ℤ) (call : κ) (entry : SysCall)
  | marking (idx : ℤ)
  | flushWait

structure Issued (κ : Type) where
  source : κ
  ring : ℤ
  entry : SysCall

/-- An executed entry, with the memory it was executed in. -/
structure Executed (μ : Type) where
  ring : ℤ
  entry : SysCall
  memory : μ

structure System (κ μ : Type) where
  workers : ℤ → KernelWorker
  user : UserPc κ
  inSegment : Bool
  batchNum : ℕ
  memory : μ
  issued : List (Issued κ)
  executed : List (Executed μ)
  /-- The calls passed on to the C library. -/
  direct : List κ
  /-- How many entries were executed at each signal of `wq`. -/
  completions : List ℕ

/-- `batchStart`, `call` and `batchFlush` are calls of the application, `user`
continues the one in progress, and `worker` moves one kernel worker, with the
outcome of its timeout test and the result of its system call. -/
inductive SystemAction (κ : Type)
  | batchStart
  | call (source : κ)
  | batchFlush
  | user
  | worker (k : ℤ) (expired : Bool) (sysret : ℤ)

namespace Deployment

variable {κ μ : Type}

def firstRing (dep : Deployment κ μ) : ℤ :=
  dep.thisWorkerId * dep.ratio

def InSet (dep : Deployment κ μ) (k : ℤ) : Prop :=
  dep.firstRing ≤ k ∧ k < dep.firstRing + dep.ratio

instance (dep : Deployment κ μ) (k : ℤ) : Decidable (dep.InSet k) :=
  inferInstanceAs (Decidable (_ ∧ _))

/-- `this_worker_id * RATIO + (fd % RATIO)`. -/
def ringIndex (dep : Deployment κ μ) (fd : ℤ) : ℤ :=
  dep.firstRing + fd.tmod dep.ratio

def route (dep : Deployment κ μ) (source : κ) : ℤ :=
  dep.ringIndex (dep.wrapper.descriptor source)

/-- The loop test of `batch_start`. -/
def startAt (dep : Deployment κ μ) (j : ℤ) : UserPc κ :=
  if j < dep.firstRing + dep.ratio then .startTest j else .ready

/-- The system after `init_worker` has registered every ring of the set. -/
def initWorker (dep : Deployment κ μ)
    (pages : ℤ → ℕ → ℕ → TableEntry) (memory : μ) : System κ μ where
  workers := fun k => KernelWorker.register dep.toTableConfig (pages k)
  user := .ready
  inSegment := false
  batchNum := 0
  memory := memory
  issued := []
  executed := []
  direct := []
  completions := []

end Deployment

namespace System

variable {κ μ : Type}

def ring (sys : System κ μ) (k : ℤ) : Ring :=
  (sys.workers k).ring

def setWorker (sys : System κ μ) (k : ℤ) (worker : KernelWorker) :
    System κ μ :=
  { sys with
    workers := fun n => if n = k then worker else sys.workers n }

def setFlags (sys : System κ μ) (k : ℤ) (flags : BitVec 32) :
    System κ μ :=
  sys.setWorker k { sys.workers k with flags := flags }

def setControl (sys : System κ μ) (k : ℤ) (control : WorkerControl) :
    System κ μ :=
  sys.setWorker k { sys.workers k with control := control }

/-- Perform one ring action on ring `k`. -/
def onRing (dep : Deployment κ μ) (sys : System κ μ) (k : ℤ)
    (action : RingAction) : Option (System κ μ) :=
  match (sys.ring k).step dep.toTableConfig action with
  | none => none
  | some ring =>
      some (sys.setWorker k { sys.workers k with ring := ring })

/-! ## The wrapper library -/

def batchStart (dep : Deployment κ μ) (sys : System κ μ) : System κ μ :=
  { sys with inSegment := true, user := dep.startAt dep.firstRing }

/-- A wrapped call: queued inside a segment, passed on outside. -/
def call (dep : Deployment κ μ) (sys : System κ μ) (source : κ) :
    Option (System κ μ) :=
  if sys.inSegment then
    let idx := dep.route source
    let tail := (sys.ring idx).table.tail
    let prepared :=
      dep.wrapper.prepare dep.toTableConfig source sys.memory idx
        tail.1 tail.2
    match sys.onRing dep idx (.write prepared.1) with
    | none => none
    | some next =>
        some { next with
          batchNum := sys.batchNum + 1
          memory := prepared.2
          user := .advancing idx source prepared.1 }
  else
    some { sys with direct := sys.direct ++ [source] }

def batchFlush (sys : System κ μ) : System κ μ :=
  if sys.batchNum = 0 then
    { sys with inSegment := false }
  else
    { sys with inSegment := false, user := .flushWait }

/-- `wait_event_interruptible` with no signal pending returns once its
condition holds. -/
def waitEvent (sys : System κ μ) (condition : Bool) :
    Option (System κ μ) :=
  if condition then some { sys with user := .ready, batchNum := 0 }
  else none

/-- The condition that `sys_esca_wait` waits for. -/
def sysEscaWaitCondition : Bool := true

/-- The next step of the library call in progress. -/
def userStep (dep : Deployment κ μ) (access : FlagAccess)
    (sys : System κ μ) : Option (System κ μ) :=
  match sys.user with
  | .ready => none
  | .startTest j =>
      if NeedsWakeup (sys.workers j).flags then
        some { sys with user := .startSet j }
      else
        some { sys with user := dep.startAt (j + 1) }
  | .startSet j =>
      match access with
      | .atomic =>
          some { sys.setFlags j
              ((sys.workers j).flags ||| escaStartWakeup) with
            user := .wakeupTest j }
      | .split =>
          some { sys with
            user := .startSetLoaded j (sys.workers j).flags }
  | .startSetLoaded j flags =>
      some { sys.setFlags j (flags ||| escaStartWakeup) with
        user := .wakeupTest j }
  | .wakeupTest j =>
      if StartsWakeup (sys.workers j).flags then
        some { sys with user := .wakeup j }
      else
        some { sys with user := .startClear j }
  | .wakeup j =>
      some { sys.setWorker j (sys.workers j).wakeUp with
        user := .startClear j }
  | .startClear j =>
      match access with
      | .atomic =>
          some { sys.setFlags j
              ((sys.workers j).flags &&& ~~~escaStartWakeup) with
            user := dep.startAt (j + 1) }
      | .split =>
          some { sys with
            user := .startClearLoaded j (sys.workers j).flags }
  | .startClearLoaded j flags =>
      some { sys.setFlags j (flags &&& ~~~escaStartWakeup) with
        user := dep.startAt (j + 1) }
  | .advancing idx source entry =>
      match sys.onRing dep idx .advance with
      | none => none
      | some next =>
          some { next with
            user := .marking idx
            issued := sys.issued ++ [⟨source, idx, entry⟩] }
  | .marking idx =>
      match sys.onRing dep idx .storeBusy with
      | none => none
      | some next => some { next with user := .ready }
  | .flushWait => sys.waitEvent sysEscaWaitCondition

/-! ## The kernel workers -/

/-- Execute the entry at the cursor; the first worker of the set goes on to
its completion scan. -/
def executeEntry (dep : Deployment κ μ) (sys : System κ μ) (k : ℤ)
    (sysret : ℤ) : Option (System κ μ) :=
  let entry := (sys.ring k).cursorEntry.call
  match sys.onRing dep k .execute with
  | none => none
  | some next =>
      some { next.setControl k
          (if k.tmod dep.ratio = 0 then .scanning k else .running) with
        memory := dep.wrapper.perform entry sysret sys.memory
        executed := sys.executed ++ [⟨k, entry, sys.memory⟩] }

/-- The batch loop of worker `k`, at the control point of its ring. -/
def batchStep (dep : Deployment κ μ) (sys : System κ μ) (k : ℤ)
    (sysret : ℤ) : Option (System κ μ) :=
  match (sys.ring k).worker with
  | .poll =>
      if (sys.ring k).cursorEntry.rstatus = .empty then
        some (sys.setControl k .sawEmpty)
      else sys.onRing dep k .poll
  | .snapshot => sys.onRing dep k .snapshot
  | .drain =>
      if (sys.ring k).submitted = 0 then sys.onRing dep k .publish
      else sys.executeEntry dep k sysret

/-- One iteration of the scan over `submitted` by worker `k`, at index `n`. -/
def scanStep (dep : Deployment κ μ) (sys : System κ μ) (k n : ℤ) :
    System κ μ :=
  if n < k + dep.ratio then
    if (sys.ring n).submitted = 0 then
      sys.setControl k (.scanning (n + 1))
    else sys.setControl k .running
  else
    { sys.setControl k .running with
      completions := sys.completions ++ [sys.executed.length] }

def workerStep (dep : Deployment κ μ) (access : FlagAccess)
    (sys : System κ μ) (k : ℤ) (expired : Bool) (sysret : ℤ) :
    Option (System κ μ) :=
  match (sys.workers k).control with
  | .running => sys.batchStep dep k sysret
  | .scanning n => some (sys.scanStep dep k n)
  | _ =>
      match (sys.workers k).idleStep access expired with
      | none => none
      | some worker => some (sys.setWorker k worker)

def step (dep : Deployment κ μ) (access : FlagAccess)
    (sys : System κ μ) : SystemAction κ → Option (System κ μ)
  | .batchStart =>
      match sys.user with
      | .ready => some (sys.batchStart dep)
      | _ => none
  | .call source =>
      match sys.user with
      | .ready => sys.call dep source
      | _ => none
  | .batchFlush =>
      match sys.user with
      | .ready => some sys.batchFlush
      | _ => none
  | .user => sys.userStep dep access
  | .worker k expired sysret =>
      if dep.InSet k then sys.workerStep dep access k expired sysret
      else none

/-- The ring whose tail the step advances. -/
def advancedRing (sys : System κ μ) (action : SystemAction κ) :
    Option ℤ :=
  match action, sys.user with
  | .user, .advancing idx _ _ => some idx
  | _, _ => none

/-- A step that does not advance a tail onto the published head of its
ring. -/
def NoOverrun (dep : Deployment κ μ) (sys : System κ μ)
    (action : SystemAction κ) : Prop :=
  ∀ idx ∈ sys.advancedRing action,
    (sys.ring idx).NoOverrun dep.toTableConfig .advance

instance (dep : Deployment κ μ) (sys : System κ μ)
    (action : SystemAction κ) : Decidable (sys.NoOverrun dep action) :=
  inferInstanceAs (Decidable (∀ idx ∈ _, _))

end System

/-! ## Small sets for concrete runs -/

def oneWorkerSet : SetConfig where
  toTableConfig := threeEntryTable
  ratio := 1
  ratio_pos := Nat.one_pos
  thisWorkerId := 0

def twoWorkerSet : SetConfig where
  toTableConfig := threeEntryTable
  ratio := 2
  ratio_pos := Nat.two_pos
  thisWorkerId := 0

/-- One worker with two tables that do not fill their pages. -/
def shortTableSet : SetConfig where
  toTableConfig := twoTables
  ratio := 1
  ratio_pos := Nat.one_pos
  thisWorkerId := 0

namespace SystemAction

variable {κ : Type}

/-- `batch_start` on freshly registered rings, with each flag update one
step. -/
def segmentStart (cfg : SetConfig) : List (SystemAction κ) :=
  .batchStart :: List.replicate (5 * cfg.ratio) .user

/-- A wrapped call inside a segment, up to its return. -/
def wholeCall (source : κ) : List (SystemAction κ) :=
  [.call source, .user, .user]

/-- Steps of worker `k` whose system calls return `0`. -/
def workerSteps (k : ℤ) (expired : Bool) (count : ℕ) :
    List (SystemAction κ) :=
  List.replicate count (.worker k expired 0)

end SystemAction

end Saio
