import Saio.SystemEffect
import Mathlib.Tactic

/-!
# One worker among the steps of the system

For the progress of a worker only two things matter: what a step of its own
does to it, and what the steps of all others do to it.  `OwnMove` lists the
former along the source of `worker`, with every guard; a step of anybody else
is a `ForeignMove`, which stores to the flags, wakes the worker up, or performs
a producer action on its ring.
-/

namespace Saio

variable {κ μ : Type} {dep : Deployment κ μ} {access : FlagAccess}
  {sys next : System κ μ} {k : ℤ}

/-- The action is a step of worker `k`. -/
def SystemAction.isOf (k : ℤ) : SystemAction κ → Bool
  | .worker n _ _ => decide (n = k)
  | _ => false

theorem SystemAction.eq_worker_of_isOf {action : SystemAction κ}
    (hown : action.isOf k = true) :
    ∃ expired sysret, action = .worker k expired sysret := by
  cases action with
  | worker n expired sysret =>
      have hn : n = k := of_decide_eq_true hown
      subst n
      exact ⟨expired, sysret, rfl⟩
  | _ => simp [isOf] at hown

namespace KernelWorker

/-- What a step of worker `k` can do to it. -/
inductive OwnMove (dep : Deployment κ μ) (access : FlagAccess) (k : ℤ)
    (worker : KernelWorker) : KernelWorker → Prop
  | sawEmpty (hcontrol : worker.control = .running)
      (hpoll : worker.ring.worker = .poll)
      (hempty : worker.ring.cursorEntry.rstatus = .empty) :
      OwnMove dep access k worker { worker with control := .sawEmpty }
  | sawBusy (hcontrol : worker.control = .running)
      (hpoll : worker.ring.worker = .poll)
      (hbusy : worker.ring.cursorEntry.rstatus = .busy) :
      OwnMove dep access k worker
        { worker with ring := { worker.ring with worker := .snapshot } }
  | snapshot (hcontrol : worker.control = .running)
      (hsnapshot : worker.ring.worker = .snapshot) :
      OwnMove dep access k worker
        { worker with ring := worker.ring.snapshot dep.toTableConfig }
  | execute (hcontrol : worker.control = .running)
      (hdrain : worker.ring.worker = .drain)
      (hsubmitted : worker.ring.submitted ≠ 0) :
      OwnMove dep access k worker
        { worker with
          ring := worker.ring.execute dep.toTableConfig
          control :=
            if k.tmod dep.ratio = 0 then .scanning k else .running }
  | publish (hcontrol : worker.control = .running)
      (hdrain : worker.ring.worker = .drain)
      (hsubmitted : worker.ring.submitted = 0) :
      OwnMove dep access k worker
        { worker with ring := worker.ring.publish }
  | scanOn (n : ℤ) (hcontrol : worker.control = .scanning n)
      (hlast : n < k + dep.ratio) :
      OwnMove dep access k worker
        { worker with control := .scanning (n + 1) }
  | scanEnd (n : ℤ) (hcontrol : worker.control = .scanning n) :
      OwnMove dep access k worker { worker with control := .running }
  | idle {moved : KernelWorker} (hmove : IdleMove access worker moved) :
      OwnMove dep access k worker moved

/-- What a step of anybody else can do to a worker. -/
inductive ForeignMove (cfg : TableConfig) (worker : KernelWorker) :
    KernelWorker → Prop
  | same : ForeignMove cfg worker worker
  | flags (flags : BitVec 32) :
      ForeignMove cfg worker { worker with flags := flags }
  | wakeUp : ForeignMove cfg worker worker.wakeUp
  | produce (action : RingAction) (ring : Ring)
      (haction : (∃ call, action = .write call) ∨ action = .advance ∨
        action = .storeBusy)
      (hring : worker.ring.step cfg action = some ring) :
      ForeignMove cfg worker { worker with ring := ring }

end KernelWorker

namespace System

open KernelWorker

theorem executeEntry_ownMove {sysret : ℤ}
    (hcontrol : (sys.workers k).control = .running)
    (hstep : sys.executeEntry dep k sysret = some next) :
    OwnMove dep access k (sys.workers k) (next.workers k) := by
  obtain ⟨done, hdone, rfl⟩ := executeEntry_cases hstep
  obtain ⟨ring, hring, rfl⟩ := onRing_frame hdone
  obtain ⟨hdrain, hsubmitted, rfl⟩ := Ring.step_execute hring
  simp only [setControl, setWorker_self]
  exact .execute hcontrol hdrain hsubmitted

theorem batchStep_ownMove {sysret : ℤ}
    (hcontrol : (sys.workers k).control = .running)
    (hstep : sys.batchStep dep k sysret = some next) :
    OwnMove dep access k (sys.workers k) (next.workers k) := by
  unfold batchStep at hstep
  split at hstep
  next hpoll =>
    split at hstep
    next hempty =>
      cases hstep
      rw [setControl, setWorker_self]
      exact .sawEmpty hcontrol hpoll hempty
    next hnot =>
      obtain ⟨ring, hring, rfl⟩ := onRing_frame hstep
      rw [setWorker_self]
      obtain ⟨_, hsame | ⟨hbusy, rfl⟩⟩ := Ring.step_poll hring
      · simp only [Ring.step, hpoll, if_true, Ring.poll, hnot, if_false,
          Option.some.injEq] at hring
        rw [← hring] at hsame
        exact absurd (congrArg Ring.worker hsame) (by simp [hpoll])
      · exact .sawBusy hcontrol hpoll hbusy
  next hsnapshot =>
    obtain ⟨ring, hring, rfl⟩ := onRing_frame hstep
    obtain ⟨_, rfl⟩ := Ring.step_snapshot hring
    rw [setWorker_self]
    exact .snapshot hcontrol hsnapshot
  next hdrain =>
    split at hstep
    next hsubmitted =>
      obtain ⟨ring, hring, rfl⟩ := onRing_frame hstep
      obtain ⟨_, _, rfl⟩ := Ring.step_publish hring
      rw [setWorker_self]
      exact .publish hcontrol hdrain hsubmitted
    next => exact executeEntry_ownMove hcontrol hstep

theorem scanStep_ownMove {n : ℤ}
    (hcontrol : (sys.workers k).control = .scanning n) :
    OwnMove dep access k (sys.workers k)
      ((sys.scanStep dep k n).workers k) := by
  unfold scanStep
  split
  next hlast =>
    split
    next =>
      rw [setControl, setWorker_self]
      exact .scanOn n hcontrol hlast
    next =>
      rw [setControl, setWorker_self]
      exact .scanEnd n hcontrol
  next =>
    rw [setControl]
    simp only [setWorker_self]
    exact .scanEnd n hcontrol

theorem step_ownMove {expired : Bool} {sysret : ℤ}
    (hstep : sys.step dep access (.worker k expired sysret) =
      some next) :
    OwnMove dep access k (sys.workers k) (next.workers k) := by
  rcases workerStep_cases (step_worker hstep).2 with
    ⟨hcontrol, hbatch⟩ | ⟨n, hcontrol, rfl⟩ | ⟨worker, hidle, rfl⟩
  · exact batchStep_ownMove hcontrol hbatch
  · exact scanStep_ownMove hcontrol
  · rw [setWorker_self]
    exact .idle (idleStep_move hidle)

theorem onRing_isSome {action : RingAction} {ring : Ring}
    (hring : (sys.ring k).step dep.toTableConfig action = some ring) :
    (sys.onRing dep k action).isSome := by
  simp [onRing, hring]

theorem batchStep_isSome (sysret : ℤ) :
    (sys.batchStep dep k sysret).isSome := by
  unfold batchStep
  split
  next hpoll =>
    split
    next => rfl
    next => exact onRing_isSome (if_pos hpoll)
  next hsnapshot => exact onRing_isSome (if_pos hsnapshot)
  next hdrain =>
    split
    next hzero => exact onRing_isSome (if_pos ⟨hdrain, hzero⟩)
    next hsubmitted =>
      have hexecute : (sys.onRing dep k .execute).isSome :=
        onRing_isSome (if_pos ⟨hdrain, hsubmitted⟩)
      obtain ⟨done, hdone⟩ := Option.isSome_iff_exists.mp hexecute
      simp [executeEntry, hdone]

/-- A worker that is not blocked can always make its next step. -/
theorem step_worker_isSome (hset : dep.InSet k)
    (hawake : ¬ (sys.workers k).Asleep) (expired : Bool) (sysret : ℤ) :
    (sys.step dep access (.worker k expired sysret)).isSome := by
  simp only [step, if_pos hset, workerStep]
  split
  next => exact batchStep_isSome sysret
  next => rfl
  next hrunning hscanning =>
    have hidle : ((sys.workers k).idleStep access expired).isSome := by
      unfold idleStep
      split
      next hcontrol => exact absurd hcontrol hrunning
      next n hcontrol => exact absurd hcontrol (hscanning n)
      next => rfl
      next => rfl
      next => cases access <;> rfl
      next => rfl
      next => split <;> rfl
      next => split <;> rfl
      next hblocked =>
        split
        next htask => exact absurd ⟨hblocked, htask⟩ hawake
        next => rfl
      next => rfl
      next => cases access <;> rfl
      next => rfl
    obtain ⟨worker, hworker⟩ := Option.isSome_iff_exists.mp hidle
    simp [hworker]

theorem onRing_foreignMove {n : ℤ} {action : RingAction}
    (haction : (∃ call, action = .write call) ∨ action = .advance ∨
      action = .storeBusy)
    (hstep : sys.onRing dep n action = some next) :
    ForeignMove dep.toTableConfig (sys.workers k)
      (next.workers k) := by
  obtain ⟨ring, hring, rfl⟩ := onRing_frame hstep
  by_cases hk : k = n
  · subst n
    rw [setWorker_self]
    exact .produce action ring haction hring
  · rw [setWorker_of_ne _ hk]
    exact .same

theorem setFlags_foreignMove (sys : System κ μ) (n : ℤ)
    (flags : BitVec 32) (cfg : TableConfig) :
    ForeignMove cfg (sys.workers k)
      ((sys.setFlags n flags).workers k) := by
  unfold setFlags
  by_cases hk : k = n
  · subst n
    rw [setWorker_self]
    exact .flags flags
  · rw [setWorker_of_ne _ hk]
    exact .same

theorem LibraryMove.foreignMove
    (hmove : LibraryMove dep access sys next) :
    ForeignMove dep.toTableConfig (sys.workers k)
      (next.workers k) := by
  cases hmove with
  | setWhole j => exact setFlags_foreignMove sys j _ _
  | setStore j flags => exact setFlags_foreignMove sys j _ _
  | clearWhole j => exact setFlags_foreignMove sys j _ _
  | clearStore j flags => exact setFlags_foreignMove sys j _ _
  | wake j =>
      by_cases hk : k = j
      · subst j
        simp only [setWorker_self]
        exact .wakeUp
      · simp only [setWorker_of_ne _ hk]
        exact .same
  | _ => exact .same

/-- Everything but a step of worker `k` itself. -/
theorem step_foreignMove {action : SystemAction κ}
    (hother : action.isOf k = false)
    (hstep : sys.step dep access action = some next) :
    ForeignMove dep.toTableConfig (sys.workers k)
      (next.workers k) := by
  cases action with
  | batchStart =>
      obtain ⟨_, rfl⟩ := step_batchStart hstep
      exact .same
  | call source =>
      rcases call_cases (step_call hstep).2 with
        ⟨_, queued, hqueued, rfl⟩ | ⟨_, rfl⟩
      · have hmove : ForeignMove dep.toTableConfig (sys.workers k)
            (queued.workers k) :=
          onRing_foreignMove (Or.inl ⟨_, rfl⟩) hqueued
        exact hmove
      · exact .same
  | batchFlush =>
      obtain ⟨_, rfl⟩ := step_batchFlush hstep
      unfold batchFlush
      split <;> exact .same
  | user =>
      rcases userStep_cases hstep with
        hmove | ⟨idx, source, entry, moved, _, hmoved, rfl⟩ |
          ⟨idx, moved, _, hmoved, rfl⟩
      · exact hmove.foreignMove
      · have hproduce : ForeignMove dep.toTableConfig (sys.workers k)
            (moved.workers k) :=
          onRing_foreignMove (Or.inr (Or.inl rfl)) hmoved
        exact hproduce
      · have hproduce : ForeignMove dep.toTableConfig (sys.workers k)
            (moved.workers k) :=
          onRing_foreignMove (Or.inr (Or.inr rfl)) hmoved
        exact hproduce
  | worker n expired sysret =>
      have hne : k ≠ n := by
        rintro rfl
        simp [SystemAction.isOf] at hother
      have hsame :=
        (workerStep_frame (step_worker hstep).2).others k hne
      rw [hsame]
      exact .same

end System

end Saio
