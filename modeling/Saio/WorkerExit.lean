import Saio.WorkerService
import Mathlib.Tactic

/-!
# Signals and the exit of a worker

`worker` allows `SIGKILL` and calls `signal_pending` at two points, after an
empty poll and after it has published its head.  If a signal is pending there
it leaves its loop and calls `do_exit`.  A signal also makes an interruptible
task runnable, wherever it waits, and keeps `schedule` from blocking.

The system is extended here by what a signal changes.  A worker leaves between
two batches only, and never while its wait entry, which lives on its stack, is
on the wait queue.  A worker with a pending signal leaves after a bounded
number of its own steps.
-/

namespace Saio

variable {κ μ : Type} {dep : Deployment κ μ} {access : FlagAccess}
  {sys : System κ μ} {k : ℤ}

/-! ## The extended system -/

/-- `checking` is the control point between the publication of the head and
the signal test behind it. -/
structure Lifetime where
  signalled : Bool
  checking : Bool
  exited : Bool

def Lifetime.created : Lifetime := ⟨false, false, false⟩

namespace KernelWorker

/-- A signal makes the task runnable but leaves it on its wait queue. -/
def signalWakeUp (worker : KernelWorker) : KernelWorker :=
  { worker with task := .running }

/-- The next step stores the head. -/
def Publishes (worker : KernelWorker) : Prop :=
  worker.control = .running ∧ worker.ring.worker = .drain ∧
    worker.ring.submitted = 0

instance (worker : KernelWorker) : Decidable worker.Publishes :=
  inferInstanceAs (Decidable (_ ∧ _ ∧ _))

end KernelWorker

/-- A system whose workers can be killed. -/
structure Killable (κ μ : Type) where
  sys : System κ μ
  lives : ℤ → Lifetime

inductive KillAction (κ : Type)
  | act (action : SystemAction κ)
  | signal (k : ℤ)

def KillAction.isOf (k : ℤ) : KillAction κ → Bool
  | .act action => action.isOf k
  | .signal _ => false

theorem KillAction.eq_worker_of_isOf {action : KillAction κ}
    (hown : action.isOf k = true) :
    ∃ expired sysret, action = .act (.worker k expired sysret) := by
  cases action with
  | signal n => simp [isOf] at hown
  | act action =>
      obtain ⟨expired, sysret, rfl⟩ :=
        SystemAction.eq_worker_of_isOf hown
      exact ⟨expired, sysret, rfl⟩

namespace Killable

variable {state next final : Killable κ μ}

def setLife (state : Killable κ μ) (k : ℤ) (life : Lifetime) :
    Killable κ μ :=
  { state with lives := Function.update state.lives k life }

def setThread (state : Killable κ μ) (k : ℤ) (worker : KernelWorker)
    (life : Lifetime) : Killable κ μ where
  sys := state.sys.setWorker k worker
  lives := Function.update state.lives k life

def doExit (state : Killable κ μ) (k : ℤ) : Killable κ μ :=
  state.setLife k { state.lives k with exited := true }

/-- A step of `worker` that is no signal test and no `schedule` under a
pending signal. -/
def proceed (dep : Deployment κ μ) (access : FlagAccess)
    (state : Killable κ μ) (k : ℤ) (expired : Bool) (sysret : ℤ) :
    Option (Killable κ μ) :=
  match state.sys.step dep access (.worker k expired sysret) with
  | none => none
  | some moved =>
      some ⟨moved, Function.update state.lives k
        { state.lives k with
          checking := decide (state.sys.workers k).Publishes }⟩

/-- One step of worker `k`.  The signal test of the poll loop and its timeout
test are one step, as are the two halves of `schedule` when a signal is
pending. -/
def workerStep (dep : Deployment κ μ) (access : FlagAccess)
    (state : Killable κ μ) (k : ℤ) (expired : Bool) (sysret : ℤ) :
    Option (Killable κ μ) :=
  if ¬ dep.InSet k ∨ (state.lives k).exited = true then none
  else if (state.lives k).checking = true then
    if (state.lives k).signalled = true then some (state.doExit k)
    else
      some (state.setLife k { state.lives k with checking := false })
  else if (state.lives k).signalled = true then
    match (state.sys.workers k).control with
    | .sawEmpty => some (state.doExit k)
    | .committed =>
        some (state.setThread k
          { (state.sys.workers k).signalWakeUp with
            control := .finishing } (state.lives k))
    | _ => state.proceed dep access k expired sysret
  else state.proceed dep access k expired sysret

def signal (state : Killable κ μ) (k : ℤ) : Option (Killable κ μ) :=
  if (state.lives k).exited = true then none
  else
    some (state.setThread k (state.sys.workers k).signalWakeUp
      { state.lives k with signalled := true })

def step (dep : Deployment κ μ) (access : FlagAccess)
    (state : Killable κ μ) : KillAction κ → Option (Killable κ μ)
  | .signal k => state.signal k
  | .act (.worker k expired sysret) =>
      state.workerStep dep access k expired sysret
  | .act action =>
      match state.sys.step dep access action with
      | none => none
      | some moved => some { state with sys := moved }

def init (dep : Deployment κ μ) (pages : ℤ → ℕ → ℕ → TableEntry)
    (memory : μ) : Killable κ μ where
  sys := dep.initWorker pages memory
  lives := fun _ => .created

def NoOverrun (dep : Deployment κ μ) (state : Killable κ μ) :
    KillAction κ → Prop
  | .act action => state.sys.NoOverrun dep action
  | .signal _ => True

instance (dep : Deployment κ μ) (state : Killable κ μ)
    (action : KillAction κ) : Decidable (state.NoOverrun dep action) :=
  match action with
  | .act action => inferInstanceAs (Decidable (state.sys.NoOverrun dep action))
  | .signal _ => instDecidableTrue

end Killable

/-! ## What a step does to one worker -/

/-- What a step of worker `k` can do to it and to its lifetime. -/
inductive OwnThreadMove (dep : Deployment κ μ) (access : FlagAccess)
    (k : ℤ) (worker : KernelWorker) (life : Lifetime) :
    KernelWorker → Lifetime → Prop
  | proceed {moved : KernelWorker} (hchecking : life.checking = false)
      (hsignal : life.signalled = true →
        worker.control ≠ .sawEmpty ∧ worker.control ≠ .committed)
      (hmove : KernelWorker.OwnMove dep access k worker moved) :
      OwnThreadMove dep access k worker life moved
        { life with checking := decide worker.Publishes }
  | goOn (hchecking : life.checking = true)
      (hsignal : life.signalled = false) :
      OwnThreadMove dep access k worker life worker
        { life with checking := false }
  | exit (hpoint : life.checking = true ∨ worker.control = .sawEmpty)
      (hsignal : life.signalled = true) :
      OwnThreadMove dep access k worker life worker
        { life with exited := true }
  | resume (hsignal : life.signalled = true)
      (hcontrol : worker.control = .committed) :
      OwnThreadMove dep access k worker life
        { worker.signalWakeUp with control := .finishing } life

/-- What a step of anybody else can do. -/
inductive ForeignThreadMove (cfg : TableConfig) (worker : KernelWorker)
    (life : Lifetime) : KernelWorker → Lifetime → Prop
  | act {moved : KernelWorker}
      (hmove : KernelWorker.ForeignMove cfg worker moved) :
      ForeignThreadMove cfg worker life moved life
  | signal (hlive : life.exited = false) :
      ForeignThreadMove cfg worker life worker.signalWakeUp
        { life with signalled := true }

namespace Killable

variable {state next final : Killable κ μ}

/-- What a step can do to the whole state: it is a step of the system, or one
thread changes and every ring stays as it is. -/
inductive Move (dep : Deployment κ μ) (access : FlagAccess)
    (state : Killable κ μ) : KillAction κ → Killable κ μ → Prop
  | library {action : SystemAction κ} {moved : System κ μ}
      (hother : ∀ k, action.isOf k = false)
      (hmoved : state.sys.step dep access action = some moved) :
      Move dep access state (.act action) { state with sys := moved }
  | proceed {k : ℤ} {expired : Bool} {sysret : ℤ} {moved : System κ μ}
      (hlive : (state.lives k).exited = false)
      (hchecking : (state.lives k).checking = false)
      (hsignal : (state.lives k).signalled = true →
        (state.sys.workers k).control ≠ .sawEmpty ∧
          (state.sys.workers k).control ≠ .committed)
      (hmoved : state.sys.step dep access (.worker k expired sysret) =
        some moved) :
      Move dep access state (.act (.worker k expired sysret))
        ⟨moved, Function.update state.lives k
          { state.lives k with
            checking := decide (state.sys.workers k).Publishes }⟩
  | thread {k : ℤ} {expired : Bool} {sysret : ℤ} {worker : KernelWorker}
      {life : Lifetime} (hlive : (state.lives k).exited = false)
      (hring : worker.ring = state.sys.ring k)
      (hmove : OwnThreadMove dep access k (state.sys.workers k)
        (state.lives k) worker life) :
      Move dep access state (.act (.worker k expired sysret))
        (state.setThread k worker life)
  | signal {k : ℤ} (hlive : (state.lives k).exited = false) :
      Move dep access state (.signal k)
        (state.setThread k (state.sys.workers k).signalWakeUp
          { state.lives k with signalled := true })

theorem setThread_same (life : Lifetime) :
    state.setThread k (state.sys.workers k) life =
      state.setLife k life := by
  unfold setThread setLife
  congr 1
  unfold System.setWorker
  congr 1
  funext n
  split
  next hn => rw [hn]
  next => rfl

theorem setThread_ring {worker : KernelWorker}
    (hring : worker.ring = state.sys.ring k) (life : Lifetime) (n : ℤ) :
    (state.setThread k worker life).sys.ring n = state.sys.ring n :=
  System.ring_setWorker_of_ring _ hring n

theorem proceed_move {expired : Bool} {sysret : ℤ}
    (hlive : (state.lives k).exited = false)
    (hchecking : (state.lives k).checking = false)
    (hsignal : (state.lives k).signalled = true →
      (state.sys.workers k).control ≠ .sawEmpty ∧
        (state.sys.workers k).control ≠ .committed)
    (hstep : state.proceed dep access k expired sysret = some next) :
    Move dep access state (.act (.worker k expired sysret)) next := by
  unfold proceed at hstep
  split at hstep
  next => simp at hstep
  next moved hmoved =>
    cases hstep
    exact .proceed hlive hchecking hsignal hmoved

theorem doExit_move {expired : Bool} {sysret : ℤ}
    (hlive : (state.lives k).exited = false)
    (hpoint : (state.lives k).checking = true ∨
      (state.sys.workers k).control = .sawEmpty)
    (hsignal : (state.lives k).signalled = true) :
    Move dep access state (.act (.worker k expired sysret))
      (state.doExit k) := by
  unfold doExit
  rw [← setThread_same]
  exact .thread hlive rfl (.exit hpoint hsignal)

theorem workerStep_move {expired : Bool} {sysret : ℤ}
    (hstep : state.workerStep dep access k expired sysret = some next) :
    Move dep access state (.act (.worker k expired sysret)) next := by
  unfold workerStep at hstep
  split at hstep
  next => simp at hstep
  next hlive =>
    rw [not_or, Bool.not_eq_true] at hlive
    split at hstep
    next hchecking =>
      split at hstep
      next hsignal =>
        cases hstep
        exact doExit_move hlive.2 (Or.inl hchecking) hsignal
      next hsignal =>
        cases hstep
        rw [← setThread_same]
        exact .thread hlive.2 rfl (.goOn hchecking (by simpa using hsignal))
    next hchecking =>
      rw [Bool.not_eq_true] at hchecking
      split at hstep
      next hsignal =>
        split at hstep
        next hcontrol =>
          cases hstep
          exact doExit_move hlive.2 (Or.inr hcontrol) hsignal
        next hcontrol =>
          cases hstep
          exact .thread hlive.2 rfl (.resume hsignal hcontrol)
        next hempty hcommitted =>
          exact proceed_move hlive.2 hchecking
            (fun _ => ⟨hempty, hcommitted⟩) hstep
      next hsignal =>
        exact proceed_move hlive.2 hchecking
          (fun hpending => absurd hpending hsignal) hstep

theorem step_move {action : KillAction κ}
    (hstep : state.step dep access action = some next) :
    Move dep access state action next := by
  cases action with
  | signal k =>
      simp only [step, signal] at hstep
      split at hstep
      next => simp at hstep
      next hlive =>
        cases hstep
        exact .signal (by simpa using hlive)
  | act action =>
      cases action with
      | worker k expired sysret => exact workerStep_move hstep
      | _ =>
          simp only [step] at hstep
          split at hstep
          next => simp at hstep
          next moved hmoved =>
            cases hstep
            exact .library (fun _ => rfl) hmoved

theorem Move.own {expired : Bool} {sysret : ℤ}
    (hmove : Move dep access state (.act (.worker k expired sysret))
      next) :
    (state.lives k).exited = false ∧
      OwnThreadMove dep access k (state.sys.workers k) (state.lives k)
        (next.sys.workers k) (next.lives k) := by
  cases hmove with
  | library hother => exact absurd (hother k) (by simp [SystemAction.isOf])
  | proceed hlive hchecking hsignal hmoved =>
      simp only [Function.update_self]
      exact ⟨hlive,
        .proceed hchecking hsignal (System.step_ownMove hmoved)⟩
  | thread hlive _ hmove =>
      simp only [setThread, System.setWorker_self, Function.update_self]
      exact ⟨hlive, hmove⟩

theorem Move.foreign {action : KillAction κ}
    (hother : action.isOf k = false)
    (hmove : Move dep access state action next) :
    ForeignThreadMove dep.toTableConfig (state.sys.workers k)
      (state.lives k) (next.sys.workers k) (next.lives k) := by
  cases hmove with
  | library _ hmoved =>
      exact .act (System.step_foreignMove hother hmoved)
  | @proceed n expired sysret _ _ _ _ hmoved =>
      have hne : k ≠ n := by
        rintro rfl
        simp [KillAction.isOf, SystemAction.isOf] at hother
      have hforeign :
          (SystemAction.worker n expired sysret : SystemAction κ).isOf k =
            false := hother
      simp only [Function.update_of_ne hne]
      exact .act (System.step_foreignMove hforeign hmoved)
  | @thread n =>
      have hne : k ≠ n := by
        rintro rfl
        simp [KillAction.isOf, SystemAction.isOf] at hother
      simp only [setThread, System.setWorker_of_ne _ hne,
        Function.update_of_ne hne]
      exact .act .same
  | @signal n hlive =>
      by_cases hne : k = n
      · subst n
        simp only [setThread, System.setWorker_self, Function.update_self]
        exact .signal hlive
      · simp only [setThread, System.setWorker_of_ne _ hne,
          Function.update_of_ne hne]
        exact .act .same

/-- The rings change as in the system. -/
theorem Move.allGood {action : KillAction κ}
    (hmove : Move dep access state action next)
    (hsafe : state.NoOverrun dep action)
    (hgood : state.sys.AllGood dep) : next.sys.AllGood dep := by
  cases hmove with
  | library _ hmoved =>
      exact hgood.afterEffect hsafe (System.step_effect hmoved)
  | proceed _ _ _ hmoved =>
      exact hgood.afterEffect hsafe (System.step_effect hmoved)
  | thread _ hring _ =>
      intro n
      rw [setThread_ring hring]
      exact hgood n
  | @signal k _ =>
      intro n
      have hring : (state.sys.workers k).signalWakeUp.ring =
          state.sys.ring k := rfl
      rw [setThread_ring hring]
      exact hgood n

end Killable

/-! ## What holds of a thread -/

/-- Between `prepare_to_wait` and `finish_wait`. -/
def WorkerControl.Waits : WorkerControl → Prop
  | .prepared => True
  | .setLoaded _ => True
  | .advertised => True
  | .committed => True
  | .blocked => True
  | .finishing => True
  | .running => False
  | .scanning _ => False
  | .sawEmpty => False
  | .expired => False
  | .clearing => False
  | .clearLoaded _ => False

namespace KernelWorker

variable {worker moved : KernelWorker} {cfg : TableConfig}

/-- Outside this stretch the task runs and is on no wait queue. -/
def Detached (worker : KernelWorker) : Prop :=
  ¬ worker.control.Waits → worker.task = .running ∧ worker.queued = false

theorem Detached.afterOwn (hdetached : worker.Detached)
    (hmove : OwnMove dep access k worker moved) : moved.Detached := by
  intro hout
  cases hmove with
  | sawEmpty hcontrol | sawBusy hcontrol | snapshot hcontrol
  | publish hcontrol | scanOn _ hcontrol | scanEnd _ hcontrol
  | execute hcontrol =>
      exact hdetached (by simp [WorkerControl.Waits, hcontrol])
  | idle hmove =>
      cases hmove with
      | spin hcontrol | expire hcontrol | clearWhole hcontrol
      | clearLoad hcontrol | clearStore _ hcontrol =>
          exact hdetached (by simp [WorkerControl.Waits, hcontrol])
      | finish hcontrol => exact ⟨rfl, rfl⟩
      | _ => exact absurd trivial hout

theorem Detached.afterForeign (hdetached : worker.Detached)
    (hmove : ForeignMove cfg worker moved) : moved.Detached := by
  cases hmove with
  | same => exact hdetached
  | flags flags => exact hdetached
  | produce action ring haction hring => exact hdetached
  | wakeUp =>
      intro hout
      rw [wakeUp_control] at hout
      unfold wakeUp
      split
      next => exact ⟨rfl, rfl⟩
      next => exact hdetached hout

theorem OwnMove.counterIdle (hmove : OwnMove dep access k worker moved)
    (hidle : worker.ring.CounterIdle) : moved.ring.CounterIdle := by
  cases hmove with
  | sawBusy _ hpoll => exact fun _ => hidle (by simp [hpoll])
  | snapshot => exact fun hnot => absurd rfl hnot
  | publish _ _ hsubmitted => exact fun _ => hsubmitted
  | execute _ hdrain => exact fun hnot => absurd hdrain hnot
  | idle hmove =>
      rw [hmove.ring_eq]
      exact hidle
  | _ => exact hidle

theorem ForeignMove.counterIdle (hmove : ForeignMove cfg worker moved)
    (hidle : worker.ring.CounterIdle) : moved.ring.CounterIdle := by
  have hsame := hmove.samePoint
  unfold Ring.CounterIdle
  rw [hsame.point_eq, hsame.submitted_eq]
  exact hidle

theorem OwnMove.scans (hmove : OwnMove dep access k worker moved)
    (hscans : ∀ n, worker.control = .scanning n → k ≤ n) {n : ℤ}
    (hcontrol : moved.control = .scanning n) : k ≤ n := by
  cases hmove with
  | execute hrunning =>
      simp only at hcontrol
      split at hcontrol
      next =>
        cases hcontrol
        exact le_rfl
      next => contradiction
  | scanOn m hscanning _ =>
      cases hcontrol
      have hm := hscans m hscanning
      omega
  | sawBusy hrunning | snapshot hrunning | publish hrunning =>
      simp only [hrunning] at hcontrol
      contradiction
  | sawEmpty | scanEnd => contradiction
  | idle hmove => cases hmove <;> contradiction

/-- A worker blocks at `schedule` only. -/
theorem OwnMove.committed_of_blocked
    (hmove : OwnMove dep access k worker moved)
    (hblocked : moved.control = .blocked) :
    worker.control = .committed := by
  cases hmove with
  | execute hrunning =>
      simp only at hblocked
      split at hblocked <;> contradiction
  | sawBusy hrunning | snapshot hrunning | publish hrunning =>
      simp only [hrunning] at hblocked
      contradiction
  | sawEmpty | scanOn | scanEnd => contradiction
  | idle hmove =>
      cases hmove with
      | sleep hcontrol => exact hcontrol
      | _ => contradiction

theorem OwnMove.eq_publish (hmove : OwnMove dep access k worker moved)
    (hpublishes : worker.Publishes) :
    moved = { worker with ring := worker.ring.publish } := by
  obtain ⟨hcontrol, hdrain, hzero⟩ := hpublishes
  cases hmove with
  | publish => rfl
  | execute _ _ hsubmitted => exact absurd hzero hsubmitted
  | sawEmpty _ hpoint | sawBusy _ hpoint | snapshot _ hpoint =>
      rw [hdrain] at hpoint
      contradiction
  | scanOn n hpoint | scanEnd n hpoint =>
      rw [hcontrol] at hpoint
      contradiction
  | idle hmove =>
      cases hmove with
      | leave hpoint =>
          rcases hpoint with hpoint | hpoint <;>
          · rw [hcontrol] at hpoint
            contradiction
      | spin hpoint | expire hpoint | prepare hpoint | setWhole hpoint
      | setLoad hpoint | setStore _ hpoint | commit hpoint
      | cancel hpoint | sleep hpoint | finish hpoint | clearWhole hpoint
      | clearLoad hpoint | clearStore _ hpoint =>
          rw [hcontrol] at hpoint
          contradiction

end KernelWorker

/-- What holds of every thread: the control point after the head has been
published is a poll, an exit leaves from there or from an empty poll, and a
signal keeps the task from blocking. -/
structure ThreadSound (k : ℤ) (worker : KernelWorker)
    (life : Lifetime) : Prop where
  aligned : worker.Aligned
  detached : worker.Detached
  counter : worker.ring.CounterIdle
  scans : ∀ n, worker.control = .scanning n → k ≤ n
  checking : life.checking = true →
    worker.control = .running ∧ worker.ring.worker = .poll
  exited : life.exited = true →
    ¬ worker.control.Waits ∧ worker.ring.worker = .poll
  roused : life.signalled = true → worker.control = .blocked →
    worker.task = .running

namespace ThreadSound

variable {worker moved : KernelWorker} {life later : Lifetime}
  {cfg : TableConfig}

theorem created (cfg : TableConfig) (pages : ℕ → ℕ → TableEntry)
    (k : ℤ) :
    ThreadSound k (KernelWorker.register cfg pages) .created where
  aligned := trivial
  detached := fun _ => ⟨rfl, rfl⟩
  counter := fun _ => rfl
  scans := nofun
  checking := nofun
  exited := nofun
  roused := nofun

theorem afterOwn (hsound : ThreadSound k worker life)
    (hlive : life.exited = false)
    (hmove : OwnThreadMove dep access k worker life moved later) :
    ThreadSound k moved later := by
  cases hmove with
  | goOn hchecking hsignal =>
      exact { hsound with checking := fun hchecking => by contradiction }
  | exit hpoint hsignal =>
      refine { hsound with exited := fun _ => ?_ }
      rcases hpoint with hchecking | hempty
      · obtain ⟨hrunning, hpoll⟩ := hsound.checking hchecking
        exact ⟨by simp [WorkerControl.Waits, hrunning], hpoll⟩
      · have haligned := hsound.aligned
        simp only [KernelWorker.Aligned, hempty] at haligned
        exact ⟨by simp [WorkerControl.Waits, hempty], haligned⟩
  | resume hsignal hcontrol =>
      have haligned := hsound.aligned
      simp only [KernelWorker.Aligned, hcontrol] at haligned
      exact
        { aligned := haligned
          detached := fun hout => absurd trivial hout
          counter := hsound.counter
          scans := fun _ hscanning => by contradiction
          checking := fun hchecking => by
            have hrunning := (hsound.checking hchecking).1
            rw [hcontrol] at hrunning
            contradiction
          exited := fun hexited => by
            rw [hlive] at hexited
            contradiction
          roused := fun _ _ => rfl }
  | proceed hchecking hsignal hmove =>
      exact
        { aligned := hsound.aligned.afterOwn hmove
          detached := hsound.detached.afterOwn hmove
          counter := hmove.counterIdle hsound.counter
          scans := fun n => hmove.scans hsound.scans
          checking := fun hpublishes => by
            have hpublishes := of_decide_eq_true hpublishes
            rw [hmove.eq_publish hpublishes]
            exact ⟨hpublishes.1, rfl⟩
          exited := fun hexited => by
            rw [hlive] at hexited
            contradiction
          roused := fun hpending hblocked =>
            absurd (hmove.committed_of_blocked hblocked)
              (hsignal hpending).2 }

theorem afterForeign (hsound : ThreadSound k worker life)
    (hmove : ForeignThreadMove cfg worker life moved later) :
    ThreadSound k moved later := by
  cases hmove with
  | signal hlive =>
      exact
        { aligned := hsound.aligned
          detached := fun hout => ⟨rfl, (hsound.detached hout).2⟩
          counter := hsound.counter
          scans := hsound.scans
          checking := hsound.checking
          exited := hsound.exited
          roused := fun _ _ => rfl }
  | act hmove =>
      have hsame := hmove.samePoint
      have hcontrol := hsame.control_eq
      have hpoint := hsame.point_eq
      refine
        { aligned := hsound.aligned.afterForeign hmove
          detached := hsound.detached.afterForeign hmove
          counter := hmove.counterIdle hsound.counter
          scans := by
            rw [hcontrol]
            exact hsound.scans
          checking := by
            rw [hcontrol, hpoint]
            exact hsound.checking
          exited := by
            rw [hcontrol, hpoint]
            exact hsound.exited
          roused := ?_ }
      intro hsignal hblocked
      rw [hcontrol] at hblocked
      exact hmove.running (hsound.roused hsignal hblocked)

end ThreadSound

/-! ## Exits -/

namespace ForeignThreadMove

variable {cfg : TableConfig} {worker moved : KernelWorker}
  {life later : Lifetime}

theorem executed_eq
    (hmove : ForeignThreadMove cfg worker life moved later) :
    moved.ring.executed = worker.ring.executed := by
  cases hmove with
  | signal => rfl
  | act hmove => exact hmove.samePoint.executed_eq

theorem life_le
    (hmove : ForeignThreadMove cfg worker life moved later) :
    later.exited = life.exited ∧
      (life.signalled = true → later.signalled = true) := by
  cases hmove with
  | signal => exact ⟨rfl, fun _ => rfl⟩
  | act => exact ⟨rfl, id⟩

end ForeignThreadMove

namespace Killable

variable {state next final : Killable κ μ} {action : KillAction κ}

def Exited (k : ℤ) (state : Killable κ μ) : Prop :=
  (state.lives k).exited = true

/-- A worker that has exited makes no step. -/
theorem Exited.foreign (hexited : state.Exited k)
    (hstep : state.step dep access action = some next) :
    ForeignThreadMove dep.toTableConfig (state.sys.workers k)
      (state.lives k) (next.sys.workers k) (next.lives k) := by
  by_cases hown : action.isOf k = true
  · obtain ⟨expired, sysret, rfl⟩ := KillAction.eq_worker_of_isOf hown
    have hlive := (step_move hstep).own.1
    rw [show (state.lives k).exited = true from hexited] at hlive
    contradiction
  · exact (step_move hstep).foreign (by simpa using hown)

theorem Exited.afterStep (hexited : state.Exited k)
    (hstep : state.step dep access action = some next) :
    next.Exited k :=
  (hexited.foreign hstep).life_le.1.trans hexited

structure Sound (dep : Deployment κ μ) (state : Killable κ μ) :
    Prop where
  good : state.sys.AllGood dep
  threads : ∀ k, ThreadSound k (state.sys.workers k) (state.lives k)

theorem init_sound (dep : Deployment κ μ)
    (pages : ℤ → ℕ → ℕ → TableEntry) (memory : μ) :
    (init dep pages memory).Sound dep where
  good := System.initWorker_allGood dep pages memory
  threads := fun k => .created dep.toTableConfig (pages k) k

theorem Sound.afterStep (hsound : state.Sound dep)
    (hsafe : state.NoOverrun dep action)
    (hstep : state.step dep access action = some next) :
    next.Sound dep where
  good := (step_move hstep).allGood hsafe hsound.good
  threads := by
    intro k
    by_cases hown : action.isOf k = true
    · obtain ⟨expired, sysret, rfl⟩ := KillAction.eq_worker_of_isOf hown
      obtain ⟨hlive, hmove⟩ := (step_move hstep).own
      exact (hsound.threads k).afterOwn hlive hmove
    · exact (hsound.threads k).afterForeign
        ((step_move hstep).foreign (by simpa using hown))

theorem run_sound {pages : ℤ → ℕ → ℕ → TableEntry} {memory : μ}
    {actions : List (KillAction κ)}
    (hrun : Transition.run (step dep access) (init dep pages memory)
      actions = some state)
    (hsafe : Transition.StepsMeet (step dep access) (NoOverrun dep)
      (init dep pages memory) actions) : state.Sound dep :=
  Transition.run_invariant
    (fun _ _ _ hsound hsafe hstep => hsound.afterStep hsafe hstep)
    (init_sound dep pages memory) hrun hsafe

/-- Worker `k` has left after the execution of `executed`. -/
structure Gone (dep : Deployment κ μ) (k : ℤ) (executed : List SysCall)
    (state : Killable κ μ) : Prop where
  sound : state.Sound dep
  exited : state.Exited k
  executed_eq : (state.sys.ring k).executed = executed

theorem Gone.afterStep {executed : List SysCall}
    (hgone : state.Gone dep k executed)
    (hsafe : state.NoOverrun dep action)
    (hstep : state.step dep access action = some next) :
    next.Gone dep k executed := by
  have hforeign := Exited.foreign hgone.exited hstep
  exact ⟨hgone.sound.afterStep hsafe hstep,
    hforeign.life_le.1.trans hgone.exited,
    hforeign.executed_eq.trans hgone.executed_eq⟩

theorem Gone.between_batches {executed : List SysCall}
    (hgone : state.Gone dep k executed) :
    ((state.sys.workers k).queued = false ∧
        (state.sys.workers k).task = .running) ∧
      (state.sys.ring k).submitted = 0 ∧
      (state.sys.ring k).table.head = (state.sys.ring k).cursor ∧
      (dep.SharesEntries →
        executed = ((state.sys.ring k).issued.take executed.length).map
          Submission.call) := by
  have hthread := hgone.sound.threads k
  have hgood := hgone.sound.good k
  obtain ⟨hout, hpoll⟩ := hthread.exited hgone.exited
  have hpoint : (state.sys.ring k).worker ≠ .drain := by
    change (state.sys.workers k).ring.worker ≠ .drain
    rw [hpoll]
    simp
  obtain ⟨htask, hqueued⟩ := hthread.detached hout
  obtain ⟨position, hhead, _, _, hpublished⟩ := hgood.published
  refine ⟨⟨hqueued, htask⟩, hthread.counter hpoint, ?_, ?_⟩
  · rw [hhead, hpublished hpoint, hgood.cursor_eq]
  · intro hshares
    rw [← hgone.executed_eq]
    exact (hgood.contents hshares).delivered

/-- A worker that has exited is off its wait queue and has left no batch
unfinished: its counter is zero and its head is where it stopped.  Nothing is
executed on its ring later, and what it has executed are the first calls of
the ring, if it found the entries where the wrappers fill them. -/
theorem exits_between_batches {pages : ℤ → ℕ → ℕ → TableEntry}
    {memory : μ} {before after : List (KillAction κ)}
    (hbefore : Transition.run (step dep access)
      (init dep pages memory) before = some state)
    (hafter : Transition.run (step dep access) state after = some final)
    (hsafe : Transition.StepsMeet (step dep access) (NoOverrun dep)
      (init dep pages memory) (before ++ after))
    (hexited : (state.lives k).exited = true) :
    (final.lives k).exited = true ∧
      ((final.sys.workers k).queued = false ∧
        (final.sys.workers k).task = .running) ∧
      (final.sys.ring k).submitted = 0 ∧
      (final.sys.ring k).table.head = (final.sys.ring k).cursor ∧
      (final.sys.ring k).executed = (state.sys.ring k).executed ∧
      (dep.SharesEntries →
        (state.sys.ring k).executed =
          ((final.sys.ring k).issued.take
            (state.sys.ring k).executed.length).map Submission.call) := by
  rw [Transition.stepsMeet_append_iff hbefore] at hsafe
  have hstart : state.Gone dep k (state.sys.ring k).executed :=
    ⟨run_sound hbefore hsafe.1, hexited, rfl⟩
  have hgone : final.Gone dep k (state.sys.ring k).executed :=
    Transition.run_invariant
      (fun _ _ _ hgone hsafe hstep => Gone.afterStep hgone hsafe hstep)
      hstart hafter hsafe.2
  obtain ⟨hdetached, hcounter, hhead, hdelivered⟩ := hgone.between_batches
  exact ⟨hgone.exited, hdetached, hcounter, hhead, hgone.executed_eq,
    hdelivered⟩

/-- The signal comes while the first of two entries is executed; the worker
finishes its batch and exits. -/
def killedInBatch : List (KillAction RedisCall) :=
  (SystemAction.segmentStart oneWorkerSet ++
      SystemAction.wholeCall (RedisCall.mk 4 64 7) ++
      SystemAction.wholeCall (RedisCall.mk 4 96 3) ++
      SystemAction.workerSteps 0 false 3).map .act ++
    .signal 0 :: (SystemAction.workerSteps 0 false 6).map .act

def lateWrites : List (KillAction RedisCall) :=
  (SystemAction.wholeCall (RedisCall.mk 4 128 2) ++
    SystemAction.wholeCall (RedisCall.mk 4 160 5)).map .act

theorem killedInBatch_exits_between_batches :
    ∃ state final,
      Transition.run (step System.oneRedis .atomic)
        (init System.oneRedis (fun _ => blankMemory) ()) killedInBatch =
        some state ∧
      Transition.run (step System.oneRedis .atomic) state lateWrites =
        some final ∧
      (state.sys.ring 0).executed.length = 2 ∧
      (final.sys.ring 0).issued.length = 4 ∧
      (final.lives 0).exited = true ∧
      ((final.sys.workers 0).queued = false ∧
        (final.sys.workers 0).task = .running) ∧
      (final.sys.ring 0).submitted = 0 ∧
      (final.sys.ring 0).table.head = (final.sys.ring 0).cursor ∧
      (final.sys.ring 0).executed = (state.sys.ring 0).executed ∧
      (state.sys.ring 0).executed =
        ((final.sys.ring 0).issued.take
          (state.sys.ring 0).executed.length).map Submission.call := by
  have hends :
      (Transition.run (step System.oneRedis .atomic)
        (init System.oneRedis (fun _ => blankMemory) ())
        killedInBatch).map
        (fun state => ((state.sys.ring 0).executed.length,
          (state.lives 0).exited,
          (Transition.run (step System.oneRedis .atomic) state
            lateWrites).map
            fun final => (final.sys.ring 0).issued.length)) =
      some (2, true, some 4) := by
    decide +kernel
  obtain ⟨state, hbefore, hstate⟩ := Option.map_eq_some_iff.mp hends
  simp only [Prod.mk.injEq] at hstate
  obtain ⟨hexecuted, hexited, hlate⟩ := hstate
  obtain ⟨final, hafter, hissued⟩ := Option.map_eq_some_iff.mp hlate
  obtain ⟨hgone, hdetached, hcounter, hhead, hsame, hdelivered⟩ :=
    exits_between_batches hbefore hafter (by decide +kernel) hexited
  exact ⟨state, final, hbefore, hafter, hexecuted, hissued, hgone,
    hdetached, hcounter, hhead, hsame, hdelivered (by decide)⟩

end Killable

/-! ## How long a signal stays pending -/

namespace KernelWorker

variable {worker moved : KernelWorker}

/-- What is left of the completion scan. -/
def scanLeft (ratio : ℕ) (k : ℤ) : WorkerControl → ℕ
  | .scanning n => (k + ratio - n).toNat + 1
  | _ => 0

/-- The steps of the idle path up to the next poll. -/
def idleLeft : WorkerControl → ℕ
  | .clearLoaded _ => 1
  | .clearing => 2
  | .finishing => 3
  | .blocked => 4
  | .committed => 4
  | .advertised => 5
  | .setLoaded _ => 6
  | .prepared => 7
  | .expired => 8
  | .running => 0
  | .sawEmpty => 0
  | .scanning _ => 0

/-- How many steps are left, at most, to the next signal test: the rest of
the batch and the publication of the head, or a whole batch if the worker has
yet to poll. -/
def testRank (dep : Deployment κ μ) (k : ℤ) (worker : KernelWorker) : ℕ :=
  match worker.ring.worker with
  | .drain =>
      worker.ring.submitted.toNat * (dep.ratio + 2) +
        scanLeft dep.ratio k worker.control + 2
  | .snapshot => dep.capacity * (dep.ratio + 2) + 3
  | .poll =>
      if worker.control = .sawEmpty then 1
      else dep.capacity * (dep.ratio + 2) + 4 + idleLeft worker.control

/-- In a good ring of up to `32767` slots the counter is what is left of the
batch. -/
theorem submitted_of_good {cfg : TableConfig} {ring : Ring}
    (hgood : ring.Good cfg) (hshort : cfg.capacity ≤ 32767)
    (hdrain : ring.worker = .drain) :
    ∃ remaining : ℕ, ring.submitted = remaining ∧
      remaining < cfg.capacity := by
  obtain ⟨remaining, hvalue, hle⟩ := hgood.batch hdrain
  have hlap := hgood.issued_lt
  refine ⟨remaining, ?_, by omega⟩
  rw [hvalue, toShort_of_le (by omega) (by omega)]

theorem testRank_le (hgood : worker.ring.Good dep.toTableConfig)
    (hshort : dep.capacity ≤ 32767)
    (hscans : ∀ n, worker.control = .scanning n → k ≤ n) :
    worker.testRank dep k ≤ dep.capacity * (dep.ratio + 2) + 12 := by
  unfold testRank
  split
  next hdrain =>
    obtain ⟨remaining, hvalue, hlt⟩ :=
      submitted_of_good hgood hshort hdrain
    have hbatch : (remaining + 1) * (dep.ratio + 2) ≤
        dep.capacity * (dep.ratio + 2) :=
      Nat.mul_le_mul_right _ hlt
    have hscan : scanLeft dep.ratio k worker.control ≤ dep.ratio + 1 := by
      unfold scanLeft
      split
      next n hcontrol =>
        have hn := hscans n hcontrol
        omega
      next => exact Nat.zero_le _
    rw [Nat.add_mul, Nat.one_mul] at hbatch
    rw [hvalue, Int.toNat_natCast]
    omega
  next => omega
  next =>
    split
    next => omega
    next =>
      have hidle : idleLeft worker.control ≤ 8 := by
        unfold idleLeft
        split <;> omega
      omega

theorem idleMove_testRank_lt (hmove : IdleMove access worker moved)
    (haligned : worker.Aligned)
    (hempty : worker.control ≠ .sawEmpty)
    (hcommitted : worker.control ≠ .committed) :
    moved.testRank dep k < worker.testRank dep k := by
  have hring := hmove.ring_eq
  cases hmove with
  | spin hcontrol | expire hcontrol => exact absurd hcontrol hempty
  | sleep hcontrol => exact absurd hcontrol hcommitted
  | leave hcontrol =>
      rcases hcontrol with hcontrol | hcontrol
      · exact absurd hcontrol hcommitted
      · simp only [Aligned, hcontrol] at haligned
        simp [testRank, idleLeft, haligned, hcontrol]
  | finish hcontrol | prepare hcontrol =>
      simp only [Aligned, hcontrol] at haligned
      simp [testRank, idleLeft, haligned, hcontrol, finishWait,
        prepareToWait]
  | setWhole hcontrol | setLoad hcontrol | setStore _ hcontrol
  | commit hcontrol | cancel hcontrol | clearWhole hcontrol
  | clearLoad hcontrol | clearStore _ hcontrol =>
      simp only [Aligned, hcontrol] at haligned
      simp [testRank, idleLeft, haligned, hcontrol]

/-- Every step towards the next signal test lowers the rank. -/
theorem OwnMove.testRank_lt (hmove : OwnMove dep access k worker moved)
    (hgood : worker.ring.Good dep.toTableConfig)
    (hshort : dep.capacity ≤ 32767) (haligned : worker.Aligned)
    (hempty : worker.control ≠ .sawEmpty)
    (hcommitted : worker.control ≠ .committed)
    (hnot : ¬ worker.Publishes) :
    moved.testRank dep k < worker.testRank dep k := by
  cases hmove with
  | sawEmpty hcontrol hpoll =>
      simp [testRank, hcontrol, hpoll]
      omega
  | sawBusy hcontrol hpoll =>
      simp [testRank, hcontrol, hpoll]
      omega
  | snapshot hcontrol hsnapshot =>
      obtain ⟨remaining, hvalue, hlt⟩ :=
        submitted_of_good hgood.afterSnapshot hshort rfl
      have hbatch : remaining * (dep.ratio + 2) ≤
          dep.capacity * (dep.ratio + 2) :=
        Nat.mul_le_mul_right _ hlt.le
      have hpoint :
          (worker.ring.snapshot dep.toTableConfig).worker = .drain := rfl
      simp only [testRank, hcontrol, hsnapshot, hpoint, hvalue, scanLeft,
        Int.toNat_natCast]
      omega
  | publish hcontrol hdrain hsubmitted =>
      exact absurd ⟨hcontrol, hdrain, hsubmitted⟩ hnot
  | execute hcontrol hdrain hsubmitted =>
      obtain ⟨remaining, hvalue, hlt⟩ :=
        submitted_of_good hgood hshort hdrain
      obtain ⟨rest, rfl⟩ : ∃ rest, remaining = rest + 1 :=
        Nat.exists_eq_succ_of_ne_zero (by omega)
      have hrest : (worker.ring.execute dep.toTableConfig).submitted =
          (rest : ℤ) := by
        change toShort (worker.ring.submitted - 1) = rest
        rw [hvalue, Nat.cast_succ, Int.add_sub_cancel,
          toShort_of_le (by omega) (by omega)]
      have hpoint :
          (worker.ring.execute dep.toTableConfig).worker = .drain :=
        hdrain
      have hscan : scanLeft dep.ratio k
          (if k.tmod dep.ratio = 0 then .scanning k else .running) ≤
          dep.ratio + 1 := by
        split
        next =>
          simp only [scanLeft]
          omega
        next => exact Nat.zero_le _
      simp only [testRank, hdrain, hpoint, hvalue, hrest,
        Int.toNat_natCast, Nat.add_mul, Nat.one_mul]
      omega
  | scanOn n hcontrol hlast =>
      simp only [Aligned, hcontrol] at haligned
      simp only [testRank, haligned, hcontrol, scanLeft]
      omega
  | scanEnd n hcontrol =>
      simp only [Aligned, hcontrol] at haligned
      simp only [testRank, haligned, hcontrol, scanLeft]
      omega
  | idle hmove =>
      exact idleMove_testRank_lt hmove haligned hempty hcommitted

end KernelWorker

/-- Steps left to the next signal test, from behind the published head
too. -/
def threadRank (dep : Deployment κ μ) (k : ℤ) (worker : KernelWorker)
    (life : Lifetime) : ℕ :=
  if life.checking = true then 1 else worker.testRank dep k

theorem threadRank_le {worker : KernelWorker} {life : Lifetime}
    (hsound : ThreadSound k worker life)
    (hgood : worker.ring.Good dep.toTableConfig)
    (hshort : dep.capacity ≤ 32767) :
    threadRank dep k worker life ≤
      dep.capacity * (dep.ratio + 2) + 12 := by
  unfold threadRank
  split
  next => omega
  next => exact KernelWorker.testRank_le hgood hshort hsound.scans

/-- Under a pending signal the worker exits or comes closer to it. -/
theorem OwnThreadMove.progress {worker moved : KernelWorker}
    {life later : Lifetime}
    (hmove : OwnThreadMove dep access k worker life moved later)
    (hsound : ThreadSound k worker life)
    (hgood : worker.ring.Good dep.toTableConfig)
    (hshort : dep.capacity ≤ 32767)
    (hsignal : life.signalled = true) :
    later.exited = true ∨ later.signalled = true ∧
      threadRank dep k moved later < threadRank dep k worker life := by
  cases hmove with
  | exit => exact Or.inl rfl
  | goOn _ hnone =>
      rw [hsignal] at hnone
      contradiction
  | resume _ hcontrol =>
      have hchecking : ¬ life.checking = true := by
        intro hchecking
        have hrunning := (hsound.checking hchecking).1
        rw [hcontrol] at hrunning
        contradiction
      have hpoll := hsound.aligned
      simp only [KernelWorker.Aligned, hcontrol] at hpoll
      refine Or.inr ⟨hsignal, ?_⟩
      simp [threadRank, if_neg hchecking, KernelWorker.testRank,
        KernelWorker.signalWakeUp, KernelWorker.idleLeft, hpoll, hcontrol]
  | proceed hchecking hpending hmove =>
      obtain ⟨hempty, hcommitted⟩ := hpending hsignal
      refine Or.inr ⟨hsignal, ?_⟩
      simp only [threadRank, hchecking, decide_eq_true_eq,
        Bool.false_eq_true, if_false]
      split
      next hpublishes =>
        obtain ⟨_, hdrain, _⟩ := hpublishes
        simp only [KernelWorker.testRank, hdrain]
        omega
      next hnot =>
        exact hmove.testRank_lt hgood hshort hsound.aligned hempty
          hcommitted hnot

theorem ForeignThreadMove.threadRank_eq {worker moved : KernelWorker}
    {life later : Lifetime}
    (hmove : ForeignThreadMove dep.toTableConfig worker life moved later) :
    threadRank dep k moved later = threadRank dep k worker life := by
  cases hmove with
  | signal => rfl
  | act hmove =>
      have hsame := hmove.samePoint
      unfold threadRank KernelWorker.testRank
      rw [hsame.control_eq, hsame.point_eq, hsame.submitted_eq]

namespace Killable

variable {state next final : Killable κ μ} {action : KillAction κ}

/-- Worker `k` has a signal pending. -/
structure Dying (dep : Deployment κ μ) (k : ℤ)
    (state : Killable κ μ) : Prop where
  sound : state.Sound dep
  signalled : (state.lives k).signalled = true

theorem Dying.progress (hdying : state.Dying dep k)
    (hshort : dep.capacity ≤ 32767)
    (hsafe : state.NoOverrun dep action)
    (hstep : state.step dep access action = some next) :
    next.Exited k ∨ next.Dying dep k ∧
      threadRank dep k (next.sys.workers k) (next.lives k) +
          (if action.isOf k then 1 else 0) ≤
        threadRank dep k (state.sys.workers k) (state.lives k) := by
  have hsound := hdying.sound.afterStep hsafe hstep
  by_cases hown : action.isOf k = true
  · rw [if_pos hown]
    obtain ⟨expired, sysret, rfl⟩ := KillAction.eq_worker_of_isOf hown
    have hmove := (step_move hstep).own.2
    rcases hmove.progress (hdying.sound.threads k) (hdying.sound.good k)
        hshort hdying.signalled with hexited | ⟨hsignal, hlower⟩
    · exact Or.inl hexited
    · exact Or.inr ⟨⟨hsound, hsignal⟩, hlower⟩
  · rw [if_neg hown]
    have hforeign := (step_move hstep).foreign
      (show action.isOf k = false by simpa using hown)
    exact Or.inr ⟨⟨hsound, hforeign.life_le.2 hdying.signalled⟩,
      hforeign.threadRank_eq.le⟩

/-- A worker under a pending signal is never blocked. -/
theorem Dying.step_isSome (hdying : state.Dying dep k)
    (hset : dep.InSet k) (hlive : (state.lives k).exited = false)
    (expired : Bool) (sysret : ℤ) :
    (state.step dep access
      (.act (.worker k expired sysret))).isSome := by
  have hproceed :
      (state.proceed dep access k expired sysret).isSome := by
    have hawake : ¬ (state.sys.workers k).Asleep := by
      rintro ⟨hblocked, htask⟩
      have hrunning := (hdying.sound.threads k).roused hdying.signalled
        hblocked
      rw [htask] at hrunning
      contradiction
    have henabled : (state.sys.step dep access
        (.worker k expired sysret)).isSome :=
      System.step_worker_isSome hset hawake expired sysret
    obtain ⟨moved, hmoved⟩ := Option.isSome_iff_exists.mp henabled
    simp [proceed, hmoved]
  simp only [step, workerStep, hset, hlive, not_true_eq_false,
    Bool.false_eq_true, or_self, if_false]
  split
  next => split <;> rfl
  next =>
    split
    next => split <;> first | rfl | exact hproceed
    next => exact hproceed

/-- Once a signal is pending the worker of a ring of at most 32767 slots exits
before it has made as many steps as it takes to drain one full ring, and until
then it can always make its next step. -/
theorem exits_in_time {pages : ℤ → ℕ → ℕ → TableEntry} {memory : μ}
    {before after : List (KillAction κ)}
    (hshort : dep.capacity ≤ 32767) (hset : dep.InSet k)
    (hbefore : Transition.run (step dep access)
      (init dep pages memory) before = some state)
    (hafter : Transition.run (step dep access) state after = some final)
    (hsafe : Transition.StepsMeet (step dep access) (NoOverrun dep)
      (init dep pages memory) (before ++ after))
    (hsignal : (state.lives k).signalled = true) :
    (final.lives k).exited = true ∨
      after.countP (KillAction.isOf k) ≤
          dep.capacity * (dep.ratio + 2) + 12 ∧
        ∀ expired sysret,
          (final.step dep access
            (.act (.worker k expired sysret))).isSome := by
  rw [Transition.stepsMeet_append_iff hbefore] at hsafe
  have hdying : state.Dying dep k :=
    ⟨run_sound hbefore hsafe.1, hsignal⟩
  have hkept : ∀ (state : Killable κ μ) action next, state.Exited k →
      state.NoOverrun dep action →
        state.step dep access action = some next → next.Exited k :=
    fun _ _ _ hexited _ hstep => hexited.afterStep hstep
  rcases Transition.goal_of_rank hkept
      (fun _ _ _ hdying hsafe hstep =>
        Dying.progress hdying hshort hsafe hstep)
      hdying hafter hsafe.2 with hexited | ⟨hend, hcount⟩
  · exact Or.inl hexited
  · by_cases hexited : (final.lives k).exited = true
    · exact Or.inl hexited
    · have hbound := threadRank_le (hdying.sound.threads k)
        (hdying.sound.good k) hshort
      have hsteps : after.countP (KillAction.isOf k) ≤ _ :=
        (Nat.le_add_left _ _).trans (hcount.trans hbound)
      exact Or.inr ⟨hsteps,
        hend.step_isSome hset (by simpa using hexited)⟩

/-- The signal comes while the first of two queued writes is executed. -/
def killedWrites : List (KillAction RedisCall) :=
  (SystemAction.segmentStart oneWorkerSet ++
      SystemAction.wholeCall (RedisCall.mk 4 64 7) ++
      SystemAction.wholeCall (RedisCall.mk 4 96 3) ++
      SystemAction.workerSteps 0 false 3).map .act ++
    [.signal 0]

theorem killedWrites_exit_in_time :
    ∃ state final,
      Transition.run (step System.oneRedis .atomic)
        (init System.oneRedis (fun _ => blankMemory) ()) killedWrites =
        some state ∧
      Transition.run (step System.oneRedis .atomic) state
        ((SystemAction.workerSteps 0 false 5).map .act) = some final ∧
      (final.lives 0).exited = false ∧
      ((final.lives 0).exited = true ∨
        ((SystemAction.workerSteps (κ := RedisCall) 0 false 5).map
            KillAction.act).countP (KillAction.isOf 0) ≤ 21 ∧
          ∀ expired sysret,
            (final.step System.oneRedis .atomic
              (.act (.worker 0 expired sysret))).isSome) := by
  have hbefore :
      Transition.run (step System.oneRedis .atomic)
        (init System.oneRedis (fun _ => blankMemory) ()) killedWrites =
        some _ := rfl
  exact ⟨_, _, hbefore, rfl, by decide +kernel,
    exits_in_time (by decide) (by decide) hbefore rfl
      (by decide +kernel) rfl⟩

end Killable

end Saio
