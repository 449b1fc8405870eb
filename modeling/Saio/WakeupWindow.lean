import Saio.AdvertisedSleep
import Mathlib.Tactic

/-!
# A wake-up that hits its sleeper

A sleep episode of a worker lasts from `prepare_to_wait` to `finish_wait`.
Once the worker has stored its advertisement it does not write its flags
again in this episode, so a `batch_start` that reads the advertisement finds
its own `ESCA_START_WAKEUP` in place and reaches `wake_up`.

The worker is queued from `prepare_to_wait` on.  The wake-up therefore makes
it runnable, whether it has already called `schedule` or is about to.
-/

namespace Saio

open SystemAction

variable {κ μ : Type} {dep : Deployment κ μ} {access : FlagAccess}
  {sys next tested final : System κ μ} {k : ℤ}
  {pages : ℤ → ℕ → ℕ → TableEntry} {memory : μ}

/-- Between the store of the advertisement and `finish_wait`. -/
def WorkerControl.InEpisode : WorkerControl → Prop
  | .advertised => True
  | .committed => True
  | .blocked => True
  | .finishing => True
  | _ => False

/-- `batch_start` has read the advertisement of ring `k` and has not yet
returned from `sys_esca_wakeup`. -/
def UserPc.Waking (k : ℤ) : UserPc κ → Prop
  | .startSet j => j = k
  | .startSetLoaded j _ => j = k
  | .wakeupTest j => j = k
  | .wakeup j => j = k
  | _ => False

theorem KernelWorker.IdleMove.of_inEpisode
    {worker moved : KernelWorker}
    (hmove : IdleMove access worker moved)
    (hbefore : worker.control.InEpisode)
    (hafter : moved.control.InEpisode) :
    moved.task = worker.task ∧ moved.queued = worker.queued ∧
      moved.flags = worker.flags := by
  cases hmove with
  | commit hcontrol hempty => exact ⟨rfl, rfl, rfl⟩
  | cancel hcontrol => exact ⟨rfl, rfl, rfl⟩
  | sleep hcontrol htask => exact ⟨rfl, rfl, rfl⟩
  | leave hcontrol htask => exact ⟨rfl, rfl, rfl⟩
  | finish hcontrol => exact hafter.elim
  | setWhole hcontrol haccess =>
      rw [hcontrol] at hbefore
      exact hbefore.elim
  | setStore flags hcontrol =>
      rw [hcontrol] at hbefore
      exact hbefore.elim
  | _ => exact hafter.elim

namespace System

/-! ## The wait queue -/

/-- What a step does to the wait state of worker `k`. -/
inductive WaitMove (access : FlagAccess) (k : ℤ) (sys next : System κ μ) :
    Prop
  | same
      (htask : (next.workers k).task = (sys.workers k).task)
      (hqueued : (next.workers k).queued = (sys.workers k).queued)
  | wake (hpc : sys.user = .wakeup k)
      (hworker : next.workers k = (sys.workers k).wakeUp)
  | idle
      (hmove : KernelWorker.IdleMove access (sys.workers k)
        (next.workers k))

theorem waitMove_setWorker {j : ℤ} {worker : KernelWorker}
    (hworkers : next.workers = (sys.setWorker j worker).workers)
    (htask : worker.task = (sys.workers j).task)
    (hqueued : worker.queued = (sys.workers j).queued) :
    WaitMove access k sys next := by
  by_cases hk : k = j
  · subst j
    apply WaitMove.same
    · rw [hworkers, setWorker_self]
      exact htask
    · rw [hworkers, setWorker_self]
      exact hqueued
  · apply WaitMove.same
    · rw [hworkers, setWorker_of_ne _ hk]
    · rw [hworkers, setWorker_of_ne _ hk]

theorem waitMove_of_sameWorkers (hworkers : next.workers = sys.workers) :
    WaitMove access k sys next :=
  .same (by rw [hworkers]) (by rw [hworkers])

theorem waitMove_onRing {idx : ℤ} {ringAction : RingAction}
    {moved : System κ μ}
    (hmoved : sys.onRing dep idx ringAction = some moved)
    (hworkers : next.workers = moved.workers) :
    WaitMove access k sys next := by
  obtain ⟨ring, _, rfl⟩ := onRing_frame hmoved
  exact waitMove_setWorker hworkers rfl rfl

theorem LibraryMove.waitMove (hmove : LibraryMove dep access sys next) :
    WaitMove access k sys next := by
  cases hmove with
  | setWhole j hpc haccess => exact waitMove_setWorker rfl rfl rfl
  | setStore j flags hpc => exact waitMove_setWorker rfl rfl rfl
  | wake j hpc =>
      by_cases hk : k = j
      · subst j
        exact .wake hpc (sys.setWorker_self k _)
      · apply WaitMove.same
        · simp [setWorker_of_ne _ hk]
        · simp [setWorker_of_ne _ hk]
  | clearWhole j hpc haccess => exact waitMove_setWorker rfl rfl rfl
  | clearStore j flags hpc => exact waitMove_setWorker rfl rfl rfl
  | _ => exact waitMove_of_sameWorkers rfl

theorem WorkerFrame.waitMove {n : ℤ}
    (hframe : WorkerFrame access sys next n) :
    WaitMove access k sys next := by
  by_cases hk : k = n
  · subst n
    rcases hframe.own with hidle | ⟨_, htask, hqueued, _⟩
    · exact .idle hidle
    · exact .same htask hqueued
  · have hworker := hframe.others k hk
    exact .same (by rw [hworker]) (by rw [hworker])

theorem step_waitMove {action : SystemAction κ}
    (hstep : sys.step dep access action = some next) :
    WaitMove access k sys next := by
  cases action with
  | batchStart =>
      obtain ⟨_, rfl⟩ := step_batchStart hstep
      exact waitMove_of_sameWorkers rfl
  | call source =>
      rcases call_cases (step_call hstep).2 with
        ⟨_, queued, hqueued, rfl⟩ | ⟨_, rfl⟩
      · exact waitMove_onRing hqueued rfl
      · exact waitMove_of_sameWorkers rfl
  | batchFlush =>
      obtain ⟨_, rfl⟩ := step_batchFlush hstep
      unfold batchFlush
      split <;> exact waitMove_of_sameWorkers rfl
  | user =>
      rcases userStep_cases hstep with
        hmove | ⟨idx, source, entry, moved, _, hmoved, rfl⟩ |
          ⟨idx, moved, _, hmoved, rfl⟩
      · exact hmove.waitMove
      · exact waitMove_onRing hmoved rfl
      · exact waitMove_onRing hmoved rfl
  | worker n expired sysret =>
      exact (workerStep_frame (step_worker hstep).2).waitMove

def Queues (sys : System κ μ) (k : ℤ) : Prop :=
  (sys.workers k).task = .interruptible →
    (sys.workers k).queued = true

theorem Queues.afterMove (hqueues : sys.Queues k)
    (hmove : WaitMove access k sys next) :
    next.Queues k := by
  cases hmove with
  | same htask hqueued =>
      unfold Queues
      rw [htask, hqueued]
      exact hqueues
  | wake _ hworker =>
      unfold Queues
      rw [hworker, KernelWorker.wakeUp_task _ hqueues]
      intro hwaits
      contradiction
  | idle hidle =>
      unfold Queues at hqueues ⊢
      generalize next.workers k = moved at hidle
      cases hidle with
      | prepare hcontrol => exact fun _ => rfl
      | finish hcontrol => simp [KernelWorker.finishWait]
      | _ => exact hqueues

/-! ## The pursuit -/

/-- The worker is runnable, or `batch_start` is on its way to wake it. -/
structure Pursued (sys : System κ μ) (k : ℤ) : Prop where
  queues : sys.Queues k
  reached : (sys.workers k).task = .running ∨
    sys.user.Waking k ∧
      (sys.user = .wakeupTest k → StartsWakeup (sys.workers k).flags)

namespace Pursued

theorem of_running (hrunning : (sys.workers k).task = .running) :
    sys.Pursued k where
  queues := by
    intro hwaits
    rw [hrunning] at hwaits
    contradiction
  reached := Or.inl hrunning

theorem running_afterMove
    (hrunning : (sys.workers k).task = .running)
    (hbefore : (sys.workers k).control.InEpisode)
    (hafter : (next.workers k).control.InEpisode)
    (hmove : WaitMove access k sys next) :
    (next.workers k).task = .running := by
  cases hmove with
  | same htask _ => rw [htask, hrunning]
  | wake _ hworker =>
      rw [hworker]
      apply KernelWorker.wakeUp_task
      intro hwaits
      rw [hrunning] at hwaits
      contradiction
  | idle hidle => rw [(hidle.of_inEpisode hbefore hafter).1, hrunning]

/-- A step of `batch_start` between its test and the return of the system
call. -/
theorem afterLibrary (hqueues : sys.Queues k)
    (hwaking : sys.user.Waking k)
    (hstarts : sys.user = .wakeupTest k →
      StartsWakeup (sys.workers k).flags)
    (hmove : LibraryMove dep access sys next) :
    next.Pursued k := by
  have hnext : next.Queues k := hqueues.afterMove hmove.waitMove
  cases hmove with
  | setWhole j hpc haccess =>
      rw [hpc] at hwaking
      obtain rfl : j = k := hwaking
      refine ⟨hnext, Or.inr ⟨rfl, ?_⟩⟩
      intro _
      simpa [setFlags] using startsWakeup_set (sys.workers j).flags
  | setLoad j hpc haccess =>
      rw [hpc] at hwaking
      exact ⟨hnext, Or.inr ⟨hwaking, by simp⟩⟩
  | setStore j flags hpc =>
      rw [hpc] at hwaking
      obtain rfl : j = k := hwaking
      refine ⟨hnext, Or.inr ⟨rfl, ?_⟩⟩
      intro _
      simpa [setFlags] using startsWakeup_set flags
  | wakeupTaken j hpc =>
      rw [hpc] at hwaking
      exact ⟨hnext, Or.inr ⟨hwaking, by simp⟩⟩
  | wakeupSkipped j hpc hskipped =>
      rw [hpc] at hwaking
      obtain rfl : j = k := hwaking
      exact absurd (hstarts hpc) hskipped
  | wake j hpc =>
      rw [hpc] at hwaking
      obtain rfl : j = k := hwaking
      apply of_running
      change ((sys.setWorker j _).workers j).task = _
      rw [setWorker_self]
      exact KernelWorker.wakeUp_task _ hqueues
  | testTaken j hpc =>
      rw [hpc] at hwaking
      exact hwaking.elim
  | testSkipped j hpc hneeds =>
      rw [hpc] at hwaking
      exact hwaking.elim
  | clearWhole j hpc haccess =>
      rw [hpc] at hwaking
      exact hwaking.elim
  | clearLoad j hpc haccess =>
      rw [hpc] at hwaking
      exact hwaking.elim
  | clearStore j flags hpc =>
      rw [hpc] at hwaking
      exact hwaking.elim
  | flushed hpc =>
      rw [hpc] at hwaking
      exact hwaking.elim

theorem afterWorker {n : ℤ} (hqueues : sys.Queues k)
    (hwaking : sys.user.Waking k)
    (hstarts : sys.user = .wakeupTest k →
      StartsWakeup (sys.workers k).flags)
    (hbefore : (sys.workers k).control.InEpisode)
    (hafter : (next.workers k).control.InEpisode)
    (hframe : WorkerFrame access sys next n) :
    next.Pursued k := by
  have hflags :
      (next.workers k).flags = (sys.workers k).flags := by
    by_cases hk : k = n
    · subst n
      rcases hframe.own with hidle | ⟨hflags, _⟩
      · exact (hidle.of_inEpisode hbefore hafter).2.2
      · exact hflags
    · rw [hframe.others k hk]
  refine ⟨hqueues.afterMove hframe.waitMove, Or.inr ?_⟩
  rw [hframe.user_eq, hflags]
  exact ⟨hwaking, hstarts⟩

theorem afterStep (hpursued : sys.Pursued k)
    (hbefore : (sys.workers k).control.InEpisode)
    (hafter : (next.workers k).control.InEpisode)
    {action : SystemAction κ}
    (hstep : sys.step dep access action = some next) :
    next.Pursued k := by
  rcases hpursued.reached with hrunning | ⟨hwaking, hstarts⟩
  · exact of_running
      (running_afterMove hrunning hbefore hafter (step_waitMove hstep))
  · cases action with
    | batchStart =>
        rw [(step_batchStart hstep).1] at hwaking
        exact hwaking.elim
    | call source =>
        rw [(step_call hstep).1] at hwaking
        exact hwaking.elim
    | batchFlush =>
        rw [(step_batchFlush hstep).1] at hwaking
        exact hwaking.elim
    | user =>
        rcases userStep_cases hstep with
          hmove | ⟨idx, source, entry, moved, hpc, _⟩ |
            ⟨idx, moved, hpc, _⟩
        · exact afterLibrary hpursued.queues hwaking hstarts hmove
        · rw [hpc] at hwaking
          exact hwaking.elim
        · rw [hpc] at hwaking
          exact hwaking.elim
    | worker n expired sysret =>
        exact afterWorker hpursued.queues hwaking hstarts hbefore hafter
          (workerStep_frame (step_worker hstep).2)

end Pursued

end System

end Saio
