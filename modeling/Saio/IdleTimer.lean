import Saio.WorkerService
import Saio.SerialClock
import Mathlib.Tactic

/-!
# The idle time of a worker

A worker sleeps when its ring has been empty for `idle_time` jiffies.  It
stores `timeout = jiffies + idle_time` at the end of every iteration of its
batch loop and after every return from `schedule`, and an empty poll goes on to
sleep if `time_after(jiffies, timeout)`.

The system left the outcome of this test open.  Here it is given by a clock
that wraps around, and a run with the clock is a run of the system.  A worker
never goes to sleep within `idle_time` of an execution or of a wake-up, and
the test passes as soon as the idle time is over, unless the clock has gone
half way around since the last store.
-/

namespace Saio

variable {κ μ : Type} {dep : Deployment κ μ} {access : FlagAccess}
  {k : ℤ}

/-- The reading of `jiffies` at the start of the run, and the `idle_time` of
the registered rings. -/
structure IdleClock where
  start : BitVec 64
  idleTime : BitVec 32

/-- `jiffies` after some ticks. -/
def IdleClock.jiffies (clock : IdleClock) (ticks : ℕ) : BitVec 64 :=
  clock.start + BitVec.ofNat 64 ticks

theorem IdleClock.jiffies_add (clock : IdleClock) (ticks later : ℕ) :
    clock.jiffies (ticks + later) =
      clock.jiffies ticks + BitVec.ofNat 64 later := by
  unfold jiffies
  rw [BitVec.ofNat_add, BitVec.add_assoc]

theorem IdleClock.setWidth_idleTime (clock : IdleClock) :
    clock.idleTime.setWidth 64 =
      BitVec.ofNat 64 clock.idleTime.toNat := by
  apply BitVec.eq_of_toNat_eq
  rw [BitVec.toNat_setWidth, BitVec.toNat_ofNat]

/-- The local variable `timeout`.  `slept` tells the way from `schedule`
through `finish_wait` from the way around it; `stored` and `busy` are the
ticks of the last store of the timeout, and of the last execution or return
from `schedule`. -/
structure Timer where
  timeout : BitVec 64
  slept : Bool
  stored : Option ℕ
  busy : Option ℕ

def Timer.start : Timer := ⟨0, false, none, none⟩

namespace KernelWorker

/-- A step from the batch loop, the completion scan or the clearing of the
flag back to the loops, behind which the timeout is stored. -/
def storesTimeout (slept : Bool) (worker moved : KernelWorker) : Bool :=
  match worker.control with
  | .running => decide (worker.Executes ∧ moved.control = .running)
  | .scanning _ => decide (moved.control = .running)
  | .clearing => slept && decide (moved.control = .running)
  | .clearLoaded _ => slept && decide (moved.control = .running)
  | _ => false

/-- The step executes an entry or leaves `schedule`. -/
def endsIdle (worker moved : KernelWorker) : Bool :=
  match worker.control with
  | .running => decide worker.Executes
  | .committed => decide (moved.control = .finishing)
  | .blocked => decide (moved.control = .finishing)
  | _ => false

/-- Whether the worker has been in `schedule` since `prepare_to_wait`. -/
def hasSlept (slept : Bool) (worker : KernelWorker) : Bool :=
  match worker.control with
  | .expired => false
  | .committed => true
  | _ => slept

end KernelWorker

def Timer.afterStep (clock : IdleClock) (ticks : ℕ) (timer : Timer)
    (worker moved : KernelWorker) : Timer :=
  let stores := worker.storesTimeout timer.slept moved
  { timeout :=
      if stores then
        clock.jiffies ticks + clock.idleTime.setWidth 64
      else timer.timeout
    slept := worker.hasSlept timer.slept
    stored := if stores then some ticks else timer.stored
    busy := if worker.endsIdle moved then some ticks else timer.busy }

structure Timed (κ μ : Type) where
  sys : System κ μ
  ticks : ℕ
  timers : ℤ → Timer

inductive TimedAction (κ : Type)
  | tick
  | act (action : SystemAction κ)

/-- The action in the system without a clock. -/
def TimedAction.erase : TimedAction κ → Option (SystemAction κ)
  | .tick => none
  | .act action => some action

namespace Timed

variable {state next : Timed κ μ} {clock : IdleClock}

/-- `time_after(jiffies, timeout)`. -/
def expired (clock : IdleClock) (state : Timed κ μ) (k : ℤ) : Bool :=
  SerialClock.after (clock.jiffies state.ticks) (state.timers k).timeout

/-- A worker's step takes the outcome of the timeout test from the clock. -/
def step (dep : Deployment κ μ) (access : FlagAccess)
    (clock : IdleClock) (state : Timed κ μ) :
    TimedAction κ → Option (Timed κ μ)
  | .tick => some { state with ticks := state.ticks + 1 }
  | .act (.worker k outcome sysret) =>
      if outcome = state.expired clock k then
        match state.sys.step dep access (.worker k outcome sysret) with
        | none => none
        | some moved =>
            some { state with
              sys := moved
              timers := Function.update state.timers k
                ((state.timers k).afterStep clock state.ticks
                  (state.sys.workers k) (moved.workers k)) }
      else none
  | .act action =>
      match state.sys.step dep access action with
      | none => none
      | some moved => some { state with sys := moved }

def init (dep : Deployment κ μ) (pages : ℤ → ℕ → ℕ → TableEntry)
    (memory : μ) : Timed κ μ where
  sys := dep.initWorker pages memory
  ticks := 0
  timers := fun _ => .start

theorem step_tick
    (hstep : state.step dep access clock .tick = some next) :
    next = { state with ticks := state.ticks + 1 } :=
  (Option.some.inj hstep).symm

/-- Every other step is one of the system; it touches the timer of the worker
that moves, if any. -/
theorem step_act {action : SystemAction κ}
    (hstep : state.step dep access clock (.act action) = some next) :
    state.sys.step dep access action = some next.sys ∧
      next.ticks = state.ticks ∧
      ∀ k, if action.isOf k = true then
        (∃ sysret, action =
            .worker k (state.expired clock k) sysret) ∧
          next.timers k = (state.timers k).afterStep clock state.ticks
            (state.sys.workers k) (next.sys.workers k)
      else next.timers k = state.timers k := by
  cases action with
  | worker n outcome sysret =>
      simp only [step] at hstep
      split at hstep
      next houtcome =>
        split at hstep
        next => simp at hstep
        next moved hmoved =>
          cases hstep
          refine ⟨hmoved, rfl, ?_⟩
          intro k
          split
          next hown =>
            have hn : n = k := of_decide_eq_true hown
            subst n
            exact ⟨⟨sysret, by rw [houtcome]⟩, Function.update_self ..⟩
          next hother =>
            have hne : k ≠ n := by
              rintro rfl
              simp [SystemAction.isOf] at hother
            exact Function.update_of_ne hne ..
      next => simp at hstep
  | _ =>
      simp only [step] at hstep
      split at hstep
      next => simp at hstep
      next moved hmoved =>
        cases hstep
        exact ⟨hmoved, rfl, fun _ => rfl⟩

/-- Without its ticks a timed run is a run of the system. -/
theorem run_erase {actions : List (TimedAction κ)} {final : Timed κ μ}
    (hrun : Transition.run (step dep access clock) state actions =
      some final) :
    Transition.run (System.step dep access) state.sys
      (actions.filterMap TimedAction.erase) = some final.sys := by
  have hanswers : ∀ state action next, True → True →
      step dep access clock state action = some next →
        True ∧ Transition.Answers (System.step dep access)
          (fun _ _ => True) (Timed.sys state) (TimedAction.erase action)
          (Timed.sys next) := by
    intro state action next _ _ hstep
    refine ⟨trivial, ?_⟩
    cases action with
    | tick =>
        rw [step_tick hstep]
        exact rfl
    | act action => exact ⟨trivial, (step_act hstep).1⟩
  exact (Transition.run_refines hanswers trivial hrun
    (Transition.stepsMeet_true _ _)).1

end Timed

/-! ## What a timer says -/

namespace KernelWorker

/-- Between an execution or a return from `schedule` and the store of the
timeout. -/
def Owes (slept : Bool) (worker : KernelWorker) : Prop :=
  match worker.control with
  | .scanning _ => True
  | .finishing => slept = true
  | .clearing => slept = true
  | .clearLoaded _ => slept = true
  | _ => False

end KernelWorker

/-- The timeout is `idle_time` behind the last store, and no execution or
return from `schedule` is later than that unless the worker is on its way to
the next store. -/
structure TimerSound (clock : IdleClock) (ticks : ℕ)
    (worker : KernelWorker) (timer : Timer) : Prop where
  timeout_eq : ∀ t ∈ timer.stored, t ≤ ticks ∧
    timer.timeout = clock.jiffies t + clock.idleTime.setWidth 64
  slept : worker.control = .blocked → timer.slept = true
  covered : ∀ b ∈ timer.busy, b ≤ ticks ∧
    (worker.Owes timer.slept ∨ ∃ t ∈ timer.stored, b ≤ t)

namespace TimerSound

variable {clock : IdleClock} {ticks : ℕ} {worker moved : KernelWorker}
  {timer : Timer}

theorem afterTick (hsound : TimerSound clock ticks worker timer) :
    TimerSound clock (ticks + 1) worker timer where
  timeout_eq := by
    intro t hstored
    obtain ⟨hle, htimeout⟩ := hsound.timeout_eq t hstored
    exact ⟨hle.trans (Nat.le_succ ticks), htimeout⟩
  slept := hsound.slept
  covered := by
    intro b hbusy
    obtain ⟨hle, hcovered⟩ := hsound.covered b hbusy
    exact ⟨hle.trans (Nat.le_succ ticks), hcovered⟩

theorem afterForeign (hsound : TimerSound clock ticks worker timer)
    (hcontrol : moved.control = worker.control) :
    TimerSound clock ticks moved timer where
  timeout_eq := hsound.timeout_eq
  slept := by
    rw [hcontrol]
    exact hsound.slept
  covered := by
    unfold KernelWorker.Owes
    rw [hcontrol]
    exact hsound.covered

/-- A step that stores the timeout. -/
theorem afterStore (hsound : TimerSound clock ticks worker timer)
    (hstores : worker.storesTimeout timer.slept moved = true)
    (hrunning : moved.control = .running) :
    TimerSound clock ticks moved
      (timer.afterStep clock ticks worker moved) where
  timeout_eq := by
    intro t hstored
    simp only [Timer.afterStep, hstores, if_true, Option.mem_def,
      Option.some.injEq] at hstored ⊢
    subst t
    exact ⟨le_rfl, rfl⟩
  slept := by
    rw [hrunning]
    nofun
  covered := by
    intro b hbusy
    have hle : b ≤ ticks := by
      simp only [Timer.afterStep] at hbusy
      split at hbusy
      next => exact (Option.mem_some_iff.mp hbusy).ge
      next => exact (hsound.covered b hbusy).1
    refine ⟨hle, Or.inr ⟨ticks, ?_, hle⟩⟩
    simp [Timer.afterStep, hstores]

/-- A step that does not. -/
theorem afterOther (hsound : TimerSound clock ticks worker timer)
    (hstores : worker.storesTimeout timer.slept moved = false)
    (hslept : moved.control = .blocked →
      worker.hasSlept timer.slept = true)
    (howes : (worker.Owes timer.slept ∨ worker.endsIdle moved = true) →
      moved.Owes (worker.hasSlept timer.slept)) :
    TimerSound clock ticks moved
      (timer.afterStep clock ticks worker moved) where
  timeout_eq := by
    intro t hstored
    simp only [Timer.afterStep, hstores, Bool.false_eq_true,
      if_false] at hstored ⊢
    exact hsound.timeout_eq t hstored
  slept := hslept
  covered := by
    intro b hbusy
    simp only [Timer.afterStep, hstores, Bool.false_eq_true,
      if_false] at hbusy ⊢
    split at hbusy
    next hends =>
      refine ⟨(Option.mem_some_iff.mp hbusy).ge, Or.inl ?_⟩
      exact howes (Or.inr hends)
    next =>
      obtain ⟨hle, hcovered⟩ := hsound.covered b hbusy
      refine ⟨hle, hcovered.imp_left ?_⟩
      exact fun howed => howes (Or.inl howed)

/-- In front of the loops the timeout is stored if the worker has slept. -/
theorem afterClear (hsound : TimerSound clock ticks worker timer)
    (hcontrol : worker.control = .clearing ∨
      ∃ flags, worker.control = .clearLoaded flags)
    (hrunning : moved.control = .running) :
    TimerSound clock ticks moved
      (timer.afterStep clock ticks worker moved) := by
  have hstores : worker.storesTimeout timer.slept moved =
      timer.slept := by
    unfold KernelWorker.storesTimeout
    rcases hcontrol with hcontrol | ⟨flags, hcontrol⟩ <;>
    · rw [hcontrol, hrunning]
      simp
  cases hslept : timer.slept with
  | true => exact hsound.afterStore (hstores.trans hslept) hrunning
  | false =>
      refine hsound.afterOther (hstores.trans hslept) ?_ ?_
      · rw [hrunning]
        nofun
      · rcases hcontrol with hcontrol | ⟨flags, hcontrol⟩ <;>
        simp [KernelWorker.Owes, KernelWorker.endsIdle, hcontrol, hslept]

theorem afterIdle (hsound : TimerSound clock ticks worker timer)
    (hmove : KernelWorker.IdleMove access worker moved) :
    TimerSound clock ticks moved
      (timer.afterStep clock ticks worker moved) := by
  cases hmove with
  | clearWhole hcontrol => exact hsound.afterClear (Or.inl hcontrol) rfl
  | clearStore flags hcontrol =>
      exact hsound.afterClear (Or.inr ⟨flags, hcontrol⟩) rfl
  | leave hcontrol =>
      have hslept : worker.hasSlept timer.slept = true := by
        unfold KernelWorker.hasSlept
        rcases hcontrol with hcontrol | hcontrol
        · rw [hcontrol]
        · rw [hcontrol]
          exact hsound.slept hcontrol
      refine hsound.afterOther ?_ (fun _ => hslept) (fun _ => hslept)
      rcases hcontrol with hcontrol | hcontrol <;>
      simp [KernelWorker.storesTimeout, hcontrol]
  | spin hcontrol | expire hcontrol | prepare hcontrol
  | setWhole hcontrol | setLoad hcontrol | setStore _ hcontrol
  | commit hcontrol | cancel hcontrol | sleep hcontrol
  | finish hcontrol | clearLoad hcontrol =>
      apply hsound.afterOther
      · simp [KernelWorker.storesTimeout, hcontrol]
      · simp [KernelWorker.hasSlept, hcontrol]
      · simp [KernelWorker.Owes, KernelWorker.endsIdle,
          KernelWorker.hasSlept, hcontrol]

theorem afterOwn (hsound : TimerSound clock ticks worker timer)
    (hmove : KernelWorker.OwnMove dep access k worker moved) :
    TimerSound clock ticks moved
      (timer.afterStep clock ticks worker moved) := by
  cases hmove with
  | sawEmpty hcontrol hpoint | sawBusy hcontrol hpoint
  | snapshot hcontrol hpoint =>
      apply hsound.afterOther
      · simp [KernelWorker.storesTimeout, KernelWorker.Executes, hcontrol,
          hpoint]
      · simp [hcontrol]
      · simp [KernelWorker.Owes, KernelWorker.endsIdle,
          KernelWorker.Executes, hcontrol, hpoint]
  | publish hcontrol hdrain hzero =>
      apply hsound.afterOther
      · simp [KernelWorker.storesTimeout, KernelWorker.Executes, hzero,
          hcontrol]
      · simp [hcontrol]
      · simp [KernelWorker.Owes, KernelWorker.endsIdle,
          KernelWorker.Executes, hcontrol, hzero]
  | execute hcontrol hdrain hsubmitted =>
      by_cases hleader : k.tmod dep.ratio = 0
      · apply hsound.afterOther
        · simp [KernelWorker.storesTimeout, hcontrol, hleader]
        · simp [hleader]
        · simp [KernelWorker.Owes, hleader]
      · apply hsound.afterStore
        · simp [KernelWorker.storesTimeout, KernelWorker.Executes,
            hcontrol, hdrain, hsubmitted, hleader]
        · exact if_neg hleader
  | scanOn n hcontrol =>
      apply hsound.afterOther
      · simp [KernelWorker.storesTimeout, hcontrol]
      · simp
      · exact fun _ => trivial
  | scanEnd n hcontrol =>
      apply hsound.afterStore
      · simp [KernelWorker.storesTimeout, hcontrol]
      · rfl
  | idle hmove => exact hsound.afterIdle hmove

end TimerSound

/-! ## Runs with a clock -/

namespace Timed

variable {state next final : Timed κ μ} {clock : IdleClock}

def Sound (clock : IdleClock) (state : Timed κ μ) : Prop :=
  ∀ k, TimerSound clock state.ticks (state.sys.workers k)
    (state.timers k)

theorem Sound.afterStep (hsound : state.Sound clock)
    {action : TimedAction κ}
    (hstep : state.step dep access clock action = some next) :
    next.Sound clock := by
  intro k
  cases action with
  | tick =>
      rw [step_tick hstep]
      exact (hsound k).afterTick
  | act action =>
      obtain ⟨hmoved, hticks, htimers⟩ := step_act hstep
      have htimer := htimers k
      rw [hticks]
      split at htimer
      next hown =>
        obtain ⟨⟨sysret, rfl⟩, htimer⟩ := htimer
        rw [htimer]
        exact (hsound k).afterOwn (System.step_ownMove hmoved)
      next hother =>
        rw [htimer]
        exact (hsound k).afterForeign
          (System.step_foreignMove (by simpa using hother)
            hmoved).samePoint.control_eq

theorem init_sound (clock : IdleClock) (dep : Deployment κ μ)
    (pages : ℤ → ℕ → ℕ → TableEntry) (memory : μ) :
    (init dep pages memory).Sound clock :=
  fun _ => ⟨nofun, nofun, nofun⟩

/-- The test compares the ticks since the last store with the idle time. -/
theorem expired_eq_after (hsound : state.Sound clock) {t : ℕ}
    (hstored : t ∈ (state.timers k).stored) :
    state.expired clock k =
      SerialClock.after
        (clock.jiffies t + BitVec.ofNat 64 (state.ticks - t))
        (clock.jiffies t + BitVec.ofNat 64 clock.idleTime.toNat) := by
  obtain ⟨hle, htimeout⟩ := (hsound k).timeout_eq t hstored
  unfold expired
  rw [htimeout, clock.setWidth_idleTime,
    ← clock.jiffies_add t (state.ticks - t), Nat.add_sub_cancel' hle]

theorem idleTime_lt (clock : IdleClock) :
    clock.idleTime.toNat < 2 ^ (64 - 1) :=
  clock.idleTime.isLt.trans (by decide)

theorem expired_iff (hsound : state.Sound clock) {t : ℕ}
    (hstored : t ∈ (state.timers k).stored)
    (hhalf : state.ticks ≤ t + 2 ^ 63) :
    state.expired clock k = true ↔
      t + clock.idleTime.toNat < state.ticks := by
  have hle := ((hsound k).timeout_eq t hstored).1
  rw [expired_eq_after hsound hstored,
    SerialClock.after_iff _ (by decide) (idleTime_lt clock) (by omega)]
  omega

/-- Without a bound on the ticks the test may miss that the idle time is over,
but it never passes early. -/
theorem lt_of_expired (hsound : state.Sound clock) {t : ℕ}
    (hstored : t ∈ (state.timers k).stored)
    (hexpired : state.expired clock k = true) :
    t + clock.idleTime.toNat < state.ticks := by
  rw [expired_eq_after hsound hstored] at hexpired
  have hlt := SerialClock.lt_of_after _ (by decide) (idleTime_lt clock)
    hexpired
  omega

/-- At the timeout test the last execution or return from `schedule` is
covered by the last store. -/
theorem Sound.stored_of_busy (hsound : state.Sound clock)
    (hcontrol : (state.sys.workers k).control = .sawEmpty) {b : ℕ}
    (hbusy : b ∈ (state.timers k).busy) :
    ∃ t ∈ (state.timers k).stored, b ≤ t := by
  rcases ((hsound k).covered b hbusy).2 with howes | hstored
  · simp [KernelWorker.Owes, hcontrol] at howes
  · exact hstored

theorem step_test {outcome : Bool} {sysret : ℤ}
    (hstep : state.step dep access clock
      (.act (.worker k outcome sysret)) = some next)
    (hcontrol : (state.sys.workers k).control = .sawEmpty) :
    (next.sys.workers k).control = .expired ↔
      state.expired clock k = true := by
  obtain ⟨hmoved, _, htimers⟩ := step_act hstep
  have hown := htimers k
  rw [if_pos (by simp [SystemAction.isOf])] at hown
  obtain ⟨⟨_, haction⟩, _⟩ := hown
  cases haction
  rcases System.workerStep_cases (System.step_worker hmoved).2 with
    ⟨hrunning, _⟩ | ⟨n, hscanning, _⟩ | ⟨worker, hidle, hnext⟩
  · rw [hcontrol] at hrunning
    contradiction
  · rw [hcontrol] at hscanning
    contradiction
  · rw [hnext, System.setWorker_self]
    simp only [KernelWorker.idleStep, hcontrol, Option.some.injEq] at hidle
    rw [← hidle]
    cases state.expired clock k with
    | true => simp
    | false => simp

/-- A run with a clock is a run of the system.  A worker that goes to sleep in
it has executed nothing and has not left `schedule` for more than `idle_time`
jiffies; and if the clock has not gone half way around since the last store,
the test sends the worker to sleep exactly if more than `idle_time` jiffies
have passed since then. -/
theorem sleeps_when_idle {pages : ℤ → ℕ → ℕ → TableEntry} {memory : μ}
    {actions : List (TimedAction κ)} {outcome : Bool} {sysret : ℤ}
    (hrun : Transition.run (step dep access clock)
      (init dep pages memory) actions = some state)
    (hstep : state.step dep access clock
      (.act (.worker k outcome sysret)) = some next)
    (hcontrol : (state.sys.workers k).control = .sawEmpty) :
    Transition.run (System.step dep access)
        (dep.initWorker pages memory)
        (actions.filterMap TimedAction.erase) = some state.sys ∧
      ((next.sys.workers k).control = .expired →
        ∀ b ∈ (state.timers k).busy,
          b + clock.idleTime.toNat < state.ticks) ∧
      ∀ t ∈ (state.timers k).stored, state.ticks ≤ t + 2 ^ 63 →
        ((next.sys.workers k).control = .expired ↔
          t + clock.idleTime.toNat < state.ticks) := by
  have hsound : state.Sound clock :=
    Transition.run_invariant
      (fun _ _ _ hsound _ hstep => Sound.afterStep hsound hstep)
      (init_sound clock dep pages memory) hrun
      (Transition.stepsMeet_true _ _)
  have htest := step_test hstep hcontrol
  refine ⟨run_erase hrun, ?_, ?_⟩
  · intro hexpired b hbusy
    obtain ⟨t, hstored, hle⟩ := hsound.stored_of_busy hcontrol hbusy
    have hlt := lt_of_expired hsound hstored (htest.mp hexpired)
    omega
  · intro t hstored hhalf
    rw [htest]
    exact expired_iff hsound hstored hhalf

/-- The counter wraps around at the second tick. -/
def nearWrap : IdleClock := ⟨BitVec.ofInt 64 (-2), 2⟩

/-- One write is executed at tick `0`; the ring is found empty at tick
`3`. -/
def idleRun : List (TimedAction RedisCall) :=
  (SystemAction.segmentStart oneWorkerSet ++
      SystemAction.wholeCall (RedisCall.mk 4 64 7) ++
      SystemAction.workerSteps 0 false 6).map .act ++
    [.tick, .tick, .tick, .act (.worker 0 true 0)]

theorem idleRun_sleeps :
    ∃ state next,
      Transition.run (step System.oneRedis .atomic nearWrap)
        (init System.oneRedis (fun _ => blankMemory) ()) idleRun =
        some state ∧
      state.step System.oneRedis .atomic nearWrap
        (.act (.worker 0 true 0)) = some next ∧
      (next.sys.workers 0).control = .expired ∧
      (state.timers 0).busy = some 0 ∧ state.ticks = 3 ∧
      Transition.run (System.step System.oneRedis .atomic)
        (System.oneRedis.initWorker (fun _ => blankMemory) ())
        (idleRun.filterMap TimedAction.erase) = some state.sys ∧
      ((next.sys.workers 0).control = .expired →
        ∀ b ∈ (state.timers 0).busy, b + 2 < state.ticks) ∧
      ∀ t ∈ (state.timers 0).stored, state.ticks ≤ t + 2 ^ 63 →
        ((next.sys.workers 0).control = .expired ↔
          t + 2 < state.ticks) := by
  have hrun :
      Transition.run (step System.oneRedis .atomic nearWrap)
        (init System.oneRedis (fun _ => blankMemory) ()) idleRun =
        some _ := rfl
  exact ⟨_, _, hrun, rfl, by decide +kernel, by decide +kernel,
    by decide +kernel,
    sleeps_when_idle hrun
      (show step System.oneRedis .atomic nearWrap _
        (.act (.worker 0 true 0)) = some _ from rfl)
      (by decide +kernel)⟩

end Timed

end Saio
