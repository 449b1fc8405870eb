import Saio.RingModel
import Mathlib.Tactic

/-!
# A kernel worker and its idle path

Around the batch loop of `RingModel` the worker has a path to sleep.  A poll
that reads `BENTRY_EMPTY` is followed by the timeout test, whose outcome is
left open here.  An expired worker enters its wait queue, advertises
`ESCA_WORKER_NEED_WAKEUP`, reads the status once more and calls `schedule`.

The wait queue has the usual semantics.  `prepare_to_wait` queues the task and
marks it interruptible, `wake_up` makes a queued task runnable and takes it
off the queue, and `schedule` blocks exactly while the task is interruptible.

The flag word is shared with the wrapper library.  An update of it is either
one step or a load followed by a store, as `FlagAccess` says.
-/

namespace Saio

/-! ## The flag word -/

def escaWorkerNeedWakeup : BitVec 32 := 1#32 <<< 1

def escaStartWakeup : BitVec 32 := 1#32 <<< 2

def NeedsWakeup (flags : BitVec 32) : Prop :=
  flags &&& escaWorkerNeedWakeup ≠ 0

def StartsWakeup (flags : BitVec 32) : Prop :=
  flags &&& escaStartWakeup ≠ 0

instance (flags : BitVec 32) : Decidable (NeedsWakeup flags) :=
  inferInstanceAs (Decidable (_ ≠ _))

instance (flags : BitVec 32) : Decidable (StartsWakeup flags) :=
  inferInstanceAs (Decidable (_ ≠ _))

theorem needsWakeup_set (flags : BitVec 32) :
    NeedsWakeup (flags ||| escaWorkerNeedWakeup) := by
  unfold NeedsWakeup
  intro hzero
  rw [BitVec.and_or_distrib_right, BitVec.and_self] at hzero
  have hmask := (BitVec.or_eq_zero_iff.mp hzero).2
  exact absurd hmask (by decide)

@[simp] theorem needsWakeup_or_start (flags : BitVec 32) :
    NeedsWakeup (flags ||| escaStartWakeup) ↔ NeedsWakeup flags := by
  have hmask : escaStartWakeup &&& escaWorkerNeedWakeup = 0#32 := by
    decide
  unfold NeedsWakeup
  rw [BitVec.and_or_distrib_right, hmask, BitVec.or_zero]

@[simp] theorem needsWakeup_and_start (flags : BitVec 32) :
    NeedsWakeup (flags &&& ~~~escaStartWakeup) ↔ NeedsWakeup flags := by
  have hmask :
      ~~~escaStartWakeup &&& escaWorkerNeedWakeup =
        escaWorkerNeedWakeup := by
    decide
  unfold NeedsWakeup
  rw [BitVec.and_assoc, hmask]

theorem startsWakeup_set (flags : BitVec 32) :
    StartsWakeup (flags ||| escaStartWakeup) := by
  unfold StartsWakeup
  intro hzero
  rw [BitVec.and_or_distrib_right, BitVec.and_self] at hzero
  have hmask := (BitVec.or_eq_zero_iff.mp hzero).2
  exact absurd hmask (by decide)

@[simp] theorem startsWakeup_or_need (flags : BitVec 32) :
    StartsWakeup (flags ||| escaWorkerNeedWakeup) ↔
      StartsWakeup flags := by
  have hmask : escaWorkerNeedWakeup &&& escaStartWakeup = 0#32 := by
    decide
  unfold StartsWakeup
  rw [BitVec.and_or_distrib_right, hmask, BitVec.or_zero]

@[simp] theorem startsWakeup_and_need (flags : BitVec 32) :
    StartsWakeup (flags &&& ~~~escaWorkerNeedWakeup) ↔
      StartsWakeup flags := by
  have hmask :
      ~~~escaWorkerNeedWakeup &&& escaStartWakeup =
        escaStartWakeup := by
    decide
  unfold StartsWakeup
  rw [BitVec.and_assoc, hmask]

/-! ## The worker -/

/-- Whether an update of the flag word is one step or a load and a store. -/
inductive FlagAccess
  | atomic
  | split
  deriving DecidableEq

inductive TaskState
  | running
  | interruptible
  deriving DecidableEq

/-- Where the worker stands.  At `running` the control point of its ring
decides, and the other points are those of the idle path in source order;
`scanning` is the loop over `submitted` after an executed entry. -/
inductive WorkerControl
  | running
  | sawEmpty
  | expired
  | prepared
  | setLoaded (flags : BitVec 32)
  | advertised
  | committed
  | blocked
  | finishing
  | clearing
  | clearLoaded (flags : BitVec 32)
  | scanning (k : ℤ)
  deriving DecidableEq

structure KernelWorker where
  ring : Ring
  flags : BitVec 32
  control : WorkerControl
  task : TaskState
  queued : Bool

namespace KernelWorker

def register (cfg : TableConfig) (memory : ℕ → ℕ → TableEntry) :
    KernelWorker where
  ring := sysEscaRegister cfg memory
  flags := 0 ||| escaWorkerNeedWakeup
  control := .running
  task := .running
  queued := false

/-- The next step executes an entry. -/
def Executes (worker : KernelWorker) : Prop :=
  worker.control = .running ∧ worker.ring.worker = .drain ∧
    worker.ring.submitted ≠ 0

instance (worker : KernelWorker) : Decidable worker.Executes :=
  inferInstanceAs (Decidable (_ ∧ _ ∧ _))

def prepareToWait (worker : KernelWorker) : KernelWorker :=
  { worker with task := .interruptible, queued := true }

def finishWait (worker : KernelWorker) : KernelWorker :=
  { worker with task := .running, queued := false }

def wakeUp (worker : KernelWorker) : KernelWorker :=
  if worker.queued = true ∧ worker.task = .interruptible then
    { worker with task := .running, queued := false }
  else worker

/-- Blocked in `schedule`, with no wake-up delivered since
`prepare_to_wait`. -/
def Asleep (worker : KernelWorker) : Prop :=
  worker.control = .blocked ∧ worker.task = .interruptible

/-- The next step of the idle path; `expired` is the outcome of the timeout
test. -/
def idleStep (access : FlagAccess) (expired : Bool)
    (worker : KernelWorker) : Option KernelWorker :=
  match worker.control with
  | .running => none
  | .scanning _ => none
  | .sawEmpty =>
      some { worker with
        control := if expired then .expired else .running }
  | .expired =>
      some { worker.prepareToWait with control := .prepared }
  | .prepared =>
      match access with
      | .atomic =>
          some { worker with
            flags := worker.flags ||| escaWorkerNeedWakeup
            control := .advertised }
      | .split =>
          some { worker with control := .setLoaded worker.flags }
  | .setLoaded flags =>
      some { worker with
        flags := flags ||| escaWorkerNeedWakeup
        control := .advertised }
  | .advertised =>
      if worker.ring.cursorEntry.rstatus = .empty then
        some { worker with control := .committed }
      else
        some { worker with control := .finishing }
  | .committed =>
      match worker.task with
      | .interruptible => some { worker with control := .blocked }
      | .running => some { worker with control := .finishing }
  | .blocked =>
      match worker.task with
      | .interruptible => none
      | .running => some { worker with control := .finishing }
  | .finishing =>
      some { worker.finishWait with control := .clearing }
  | .clearing =>
      match access with
      | .atomic =>
          some { worker with
            flags := worker.flags &&& ~~~escaWorkerNeedWakeup
            control := .running }
      | .split =>
          some { worker with control := .clearLoaded worker.flags }
  | .clearLoaded flags =>
      some { worker with
        flags := flags &&& ~~~escaWorkerNeedWakeup
        control := .running }

/-- What one step of the idle path can do. -/
inductive IdleMove (access : FlagAccess) (worker : KernelWorker) :
    KernelWorker → Prop
  | spin (hcontrol : worker.control = .sawEmpty) :
      IdleMove access worker { worker with control := .running }
  | expire (hcontrol : worker.control = .sawEmpty) :
      IdleMove access worker { worker with control := .expired }
  | prepare (hcontrol : worker.control = .expired) :
      IdleMove access worker
        { worker.prepareToWait with control := .prepared }
  | setWhole (hcontrol : worker.control = .prepared)
      (haccess : access = .atomic) :
      IdleMove access worker
        { worker with
          flags := worker.flags ||| escaWorkerNeedWakeup
          control := .advertised }
  | setLoad (hcontrol : worker.control = .prepared)
      (haccess : access = .split) :
      IdleMove access worker
        { worker with control := .setLoaded worker.flags }
  | setStore (flags : BitVec 32)
      (hcontrol : worker.control = .setLoaded flags) :
      IdleMove access worker
        { worker with
          flags := flags ||| escaWorkerNeedWakeup
          control := .advertised }
  | commit (hcontrol : worker.control = .advertised)
      (hempty : worker.ring.cursorEntry.rstatus = .empty) :
      IdleMove access worker { worker with control := .committed }
  | cancel (hcontrol : worker.control = .advertised) :
      IdleMove access worker { worker with control := .finishing }
  | sleep (hcontrol : worker.control = .committed)
      (htask : worker.task = .interruptible) :
      IdleMove access worker { worker with control := .blocked }
  | leave (hcontrol :
        worker.control = .committed ∨ worker.control = .blocked)
      (htask : worker.task = .running) :
      IdleMove access worker { worker with control := .finishing }
  | finish (hcontrol : worker.control = .finishing) :
      IdleMove access worker
        { worker.finishWait with control := .clearing }
  | clearWhole (hcontrol : worker.control = .clearing)
      (haccess : access = .atomic) :
      IdleMove access worker
        { worker with
          flags := worker.flags &&& ~~~escaWorkerNeedWakeup
          control := .running }
  | clearLoad (hcontrol : worker.control = .clearing)
      (haccess : access = .split) :
      IdleMove access worker
        { worker with control := .clearLoaded worker.flags }
  | clearStore (flags : BitVec 32)
      (hcontrol : worker.control = .clearLoaded flags) :
      IdleMove access worker
        { worker with
          flags := flags &&& ~~~escaWorkerNeedWakeup
          control := .running }

theorem idleStep_move {access : FlagAccess} {expired : Bool}
    {worker moved : KernelWorker}
    (hstep : worker.idleStep access expired = some moved) :
    IdleMove access worker moved := by
  unfold idleStep at hstep
  split at hstep
  next => simp at hstep
  next => simp at hstep
  next hcontrol =>
    cases expired with
    | false =>
        cases hstep
        exact .spin hcontrol
    | true =>
        cases hstep
        exact .expire hcontrol
  next hcontrol =>
    cases hstep
    exact .prepare hcontrol
  next hcontrol =>
    cases access with
    | atomic =>
        cases hstep
        exact .setWhole hcontrol rfl
    | split =>
        cases hstep
        exact .setLoad hcontrol rfl
  next flags hcontrol =>
    cases hstep
    exact .setStore flags hcontrol
  next hcontrol =>
    split at hstep
    next hempty =>
      cases hstep
      exact .commit hcontrol hempty
    next =>
      cases hstep
      exact .cancel hcontrol
  next hcontrol =>
    split at hstep
    next htask =>
      cases hstep
      exact .sleep hcontrol htask
    next htask =>
      cases hstep
      exact .leave (Or.inl hcontrol) htask
  next hcontrol =>
    split at hstep
    next => simp at hstep
    next htask =>
      cases hstep
      exact .leave (Or.inr hcontrol) htask
  next hcontrol =>
    cases hstep
    exact .finish hcontrol
  next hcontrol =>
    cases access with
    | atomic =>
        cases hstep
        exact .clearWhole hcontrol rfl
    | split =>
        cases hstep
        exact .clearLoad hcontrol rfl
  next flags hcontrol =>
    cases hstep
    exact .clearStore flags hcontrol

theorem IdleMove.ring_eq {access : FlagAccess}
    {worker moved : KernelWorker}
    (hmove : IdleMove access worker moved) :
    moved.ring = worker.ring := by
  cases hmove <;> rfl

/-- The idle path does not touch the completion scan. -/
theorem IdleMove.not_scanning {access : FlagAccess}
    {worker moved : KernelWorker}
    (hmove : IdleMove access worker moved) (n : ℤ) :
    worker.control ≠ .scanning n ∧ moved.control ≠ .scanning n := by
  cases hmove with
  | leave hcontrol htask =>
      rcases hcontrol with hcontrol | hcontrol <;> simp [hcontrol]
  | _ => simp [*]

@[simp] theorem wakeUp_ring (worker : KernelWorker) :
    worker.wakeUp.ring = worker.ring := by
  unfold wakeUp
  split <;> rfl

@[simp] theorem wakeUp_flags (worker : KernelWorker) :
    worker.wakeUp.flags = worker.flags := by
  unfold wakeUp
  split <;> rfl

@[simp] theorem wakeUp_control (worker : KernelWorker) :
    worker.wakeUp.control = worker.control := by
  unfold wakeUp
  split <;> rfl

/-- A wake-up leaves no queued task interruptible. -/
theorem wakeUp_task (worker : KernelWorker)
    (hqueued : worker.task = .interruptible → worker.queued = true) :
    worker.wakeUp.task = .running := by
  unfold wakeUp
  split
  next => rfl
  next hnot =>
    cases htask : worker.task with
    | running => rfl
    | interruptible => exact absurd ⟨hqueued htask, htask⟩ hnot

end KernelWorker

end Saio
