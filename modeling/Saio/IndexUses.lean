import Saio.Configuration
import Saio.CompletionSignal
import Saio.SharedLayout
import Saio.WorkerSetup
import Mathlib.Tactic

/-!
# What the program uses as an index

This file lists what each piece of the program uses as an index into an array,
as a divisor or as the value of a counter: the set-up of a worker, the library
behind it, and every step of a running set.
-/

namespace Saio

/-- The arrays with an element for every ring. -/
inductive RingArray
  | table
  | tablePinnedPages
  | workerTask
  | workerWait
  | wq
  | submitted
  | offArr
  deriving DecidableEq

/-- `header` counts the headers in the page of a set. -/
inductive IndexUse
  | ring (array : RingArray) (k : ℤ)
  | header (n : ℤ)
  | table (i : ℤ)
  | entry (j : ℤ)
  | divisor (value : ℤ)
  | counter (value : ℤ)
  deriving DecidableEq

/-- The uses of `tables[i][j]`. -/
def slotUses (slot : ℕ × ℕ) : List IndexUse :=
  [.table slot.1, .entry slot.2]

/-- The uses of `table[k]->`: the pointer and the header it refers to. -/
def pointerUses (first k : ℤ) : List IndexUse :=
  [.ring .table k, .header (k - first)]

/-! ## Set-up -/

namespace ConfigGlobals

def preload (globals : ConfigGlobals) : PreloadConfig where
  maxUsrWorker := globals.maxUsrWorker
  maxCpuNum := globals.maxCpuNum

/-- The loop over the tables of a ring. -/
def tableUses (globals : ConfigGlobals) : List IndexUse :=
  (List.range globals.maxTableLen.toNat).map fun j : ℕ => .table j

/-- The loops over all entries of a ring. -/
def entryUses (globals : ConfigGlobals) : List IndexUse :=
  (List.range globals.maxTableLen.toNat).flatMap fun j =>
    (List.range globals.maxTableEntry.toNat).flatMap fun k =>
      slotUses (j, k)

/-- Where `sys_esca_register` finds the header of ring `id`: with a header page
it maps the whole set. -/
def headerUses (globals : ConfigGlobals) (header : Bool) (id : ℤ) :
    List IndexUse :=
  if header then
    (List.range globals.ratio.toNat).flatMap fun n : ℕ =>
      pointerUses id (id + n)
  else [.ring .table id]

/-- The first lines of `worker`. -/
def workerUses (globals : ConfigGlobals) (id : ℤ) : List IndexUse :=
  if globals.escaLocalize ≠ 0 then
    [.divisor globals.ratio, .ring .wq id]
  else [.ring .wq id]

def sysEscaRegisterUses (globals : ConfigGlobals) (header : Bool)
    (id : ℤ) : List IndexUse :=
  globals.headerUses header id ++
    (.ring .tablePinnedPages id :: .ring .table id ::
      .ring .submitted id :: .ring .workerWait id ::
      .ring .workerTask id ::
      (globals.tableUses ++
        (globals.entryUses ++ globals.workerUses id)))

/-- The loop of `init_worker`, which stops at a failed allocation. -/
def setupUses (globals : ConfigGlobals) (outcomes : SetupOutcomes)
    (first : ℤ) : List ℤ → List IndexUse
  | [] => []
  | i :: rest =>
      .ring .table first :: pointerUses first i ++
        if outcomes.allocated i then
          globals.sysEscaRegisterUses (i = first) i ++
            globals.tableUses ++
            globals.setupUses outcomes first rest
        else []

def initWorkerUses (globals : ConfigGlobals) (outcomes : SetupOutcomes)
    (idx : ℤ) : List IndexUse :=
  if globals.maxUsrWorker ≤ idx then []
  else
    globals.setupUses outcomes (idx * globals.ratio)
      (globals.preload.rings idx)

end ConfigGlobals

/-- What the library uses after a set-up, whether or not it has failed. -/
def WorkerProcess.uses (cfg : PreloadConfig) (proc : WorkerProcess)
    (op : SegmentOp) : List IndexUse :=
  (proc.touches cfg op).flatMap fun k =>
    .divisor cfg.ratio :: pointerUses (cfg.firstRing proc.thisWorkerId) k

/-! ## A running set -/

/-- One step of a party on ring `k`. -/
def Ring.uses (cfg : TableConfig) (first k : ℤ) (ring : Ring) :
    RingAction → List IndexUse
  | .write _ => pointerUses first k ++ slotUses ring.table.tail
  | .advance => pointerUses first k
  | .storeBusy =>
      pointerUses first k ++
        match ring.producer with
        | .advanced i j => slotUses (i, j)
        | _ => []
  | .poll => pointerUses first k ++ slotUses ring.cursor
  | .snapshot =>
      pointerUses first k ++
        [.ring .submitted k,
          .counter (batchCount cfg ring.i ring.j ring.table.tailTable
            ring.table.tailEntry)]
  | .execute =>
      pointerUses first k ++ slotUses ring.cursor ++
        [.ring .submitted k, .counter (ring.submitted - 1)]
  | .publish => pointerUses first k ++ [.ring .submitted k]

namespace KernelWorker

/-- One step of the idle path of worker `k`. -/
def idleUses (first k : ℤ) (worker : KernelWorker) : List IndexUse :=
  match worker.control with
  | .expired | .finishing => [.ring .workerWait k]
  | .prepared | .setLoaded _ | .clearing | .clearLoaded _ =>
      pointerUses first k
  | .advertised => pointerUses first k ++ slotUses worker.ring.cursor
  | .running | .scanning _ | .sawEmpty | .committed | .blocked => []

variable {κ μ : Type}

/-- One step of worker `k`. -/
def uses (dep : Deployment κ μ) (k : ℤ) (worker : KernelWorker) :
    List IndexUse :=
  match worker.control with
  | .running =>
      match worker.ring.worker with
      | .poll => worker.ring.uses dep.toTableConfig dep.firstRing k .poll
      | .snapshot =>
          worker.ring.uses dep.toTableConfig dep.firstRing k .snapshot
      | .drain =>
          if worker.ring.submitted = 0 then
            worker.ring.uses dep.toTableConfig dep.firstRing k .publish
          else
            worker.ring.uses dep.toTableConfig dep.firstRing k .execute ++
              [.divisor dep.ratio]
  | .scanning n =>
      if n < k + dep.ratio then [.ring .submitted n] else [.ring .wq k]
  | _ => worker.idleUses dep.firstRing k

section Running

variable {worker : KernelWorker} (dep : Deployment κ μ) (k : ℤ)
  (hcontrol : worker.control = .running)

include hcontrol

theorem uses_poll (hphase : worker.ring.worker = .poll) :
    worker.uses dep k =
      worker.ring.uses dep.toTableConfig dep.firstRing k .poll := by
  simp only [uses, hcontrol, hphase]

theorem uses_snapshot (hphase : worker.ring.worker = .snapshot) :
    worker.uses dep k =
      worker.ring.uses dep.toTableConfig dep.firstRing k .snapshot := by
  simp only [uses, hcontrol, hphase]

theorem uses_drain (hphase : worker.ring.worker = .drain) :
    worker.uses dep k =
      if worker.ring.submitted = 0 then
        worker.ring.uses dep.toTableConfig dep.firstRing k .publish
      else
        worker.ring.uses dep.toTableConfig dep.firstRing k .execute ++
          [.divisor dep.ratio] := by
  simp only [uses, hcontrol, hphase]

end Running

end KernelWorker

namespace System

variable {κ μ : Type}

/-- One step of the library call in progress. -/
def userUses (dep : Deployment κ μ) (sys : System κ μ) : List IndexUse :=
  match sys.user with
  | .ready => []
  | .startTest j | .startSet j | .startSetLoaded j _ | .wakeupTest j
  | .startClear j | .startClearLoaded j _ => pointerUses dep.firstRing j
  | .wakeup j => [.ring .workerWait j]
  | .advancing idx _ _ =>
      (sys.ring idx).uses dep.toTableConfig dep.firstRing idx .advance
  | .marking idx =>
      (sys.ring idx).uses dep.toTableConfig dep.firstRing idx .storeBusy
  | .flushWait => [.ring .wq dep.firstRing]

/-- A wrapped call in a segment; only the lighttpd wrappers have
`off_arr`. -/
def callUses (dep : Deployment κ μ) (sys : System κ μ) (source : κ) :
    List IndexUse :=
  if sys.inSegment then
    .divisor dep.ratio :: .ring .offArr (dep.route source) ::
      (sys.ring (dep.route source)).uses dep.toTableConfig dep.firstRing
        (dep.route source) (.write (sys.prepared dep source).1)
  else []

def uses (dep : Deployment κ μ) (sys : System κ μ) :
    SystemAction κ → List IndexUse
  | .batchStart => []
  | .call source => sys.callUses dep source
  | .batchFlush => []
  | .user => sys.userUses dep
  | .worker k _ _ =>
      if dep.InSet k then (sys.workers k).uses dep k else []

end System

end Saio
