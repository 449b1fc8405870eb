import Saio.SystemDelivery
import Saio.AdvertisedSleep
import Mathlib.Tactic

/-!
# Lost wake-ups

`batch_start` looks at the flag of each ring once, and nothing after it does.
A worker that reads `BENTRY_EMPTY` in its re-check later in the segment goes
to sleep although the segment's calls are still to come, and nobody wakes it.

With atomic flag updates this is the only way to lose a wake-up on rings
without overrun that share their entries with the kernel.  A worker that
decides to sleep before `batch_start` has passed its ring is advertised and
queued when the flag is tested, and is woken there; one that decides after
`batch_flush` finds nothing to execute.
-/

namespace Saio

open SystemAction

variable {κ μ : Type} {dep : Deployment κ μ} {sys next final : System κ μ}
  {pages : ℤ → ℕ → ℕ → TableEntry} {memory : μ}
  {actions : List (SystemAction κ)}

/-- `batch_start` has not yet woken the worker of ring `k`. -/
def UserPc.BeforeWakeup (k : ℤ) : UserPc κ → Prop
  | .startTest j => j ≤ k
  | .startSet j => j ≤ k
  | .startSetLoaded j _ => j ≤ k
  | .wakeupTest j => j ≤ k
  | .wakeup j => j ≤ k
  | .startClear j => j < k
  | .startClearLoaded j _ => j < k
  | _ => False

instance (k : ℤ) (user : UserPc κ) : Decidable (user.BeforeWakeup k) :=
  match user with
  | .ready => instDecidableFalse
  | .startTest j => inferInstanceAs (Decidable (j ≤ k))
  | .startSet j => inferInstanceAs (Decidable (j ≤ k))
  | .startSetLoaded j _ => inferInstanceAs (Decidable (j ≤ k))
  | .wakeupTest j => inferInstanceAs (Decidable (j ≤ k))
  | .wakeup j => inferInstanceAs (Decidable (j ≤ k))
  | .startClear j => inferInstanceAs (Decidable (j < k))
  | .startClearLoaded j _ => inferInstanceAs (Decidable (j < k))
  | .advancing _ _ _ => instDecidableFalse
  | .marking _ => instDecidableFalse
  | .flushWait => instDecidableFalse

theorem UserPc.BeforeWakeup.outside {k : ℤ} {user : UserPc κ}
    (hbefore : user.BeforeWakeup k) : user.Outside := by
  cases user with
  | advancing idx source entry => exact hbefore.elim
  | marking idx => exact hbefore.elim
  | _ => trivial

theorem Deployment.startAt_beforeWakeup {k j : ℤ}
    (hset : dep.InSet k) (hle : j ≤ k) :
    (dep.startAt j).BeforeWakeup k := by
  unfold Deployment.startAt
  rw [if_pos (hle.trans_lt hset.2)]
  exact hle

theorem Deployment.startAt_ne_wakeupTest (dep : Deployment κ μ)
    (j k : ℤ) : dep.startAt j ≠ .wakeupTest k := by
  unfold Deployment.startAt
  split <;> simp

/-- The worker has decided to sleep. -/
def WorkerControl.Sleeps (control : WorkerControl) : Prop :=
  control = .committed ∨ control = .blocked

theorem WorkerControl.Sleeps.declared {control : WorkerControl}
    (hsleeps : control.Sleeps) : control.Declared := by
  rcases hsleeps with rfl | rfl <;> trivial

namespace KernelWorker

/-- What the flags, the wait queue and the ring of a worker guarantee.
`testing` says that `sys_esca_wakeup` is about to test its flags, and `past`
that it will not be woken again in the open segment. -/
structure Guarded (worker : KernelWorker) (testing past : Prop) :
    Prop where
  queued : worker.task = .interruptible → worker.queued = true
  needs : worker.control.Declared → NeedsWakeup worker.flags
  starts : testing → StartsWakeup worker.flags
  asleep : worker.control.Sleeps → worker.task = .interruptible →
    ¬ past ∧ worker.ring.executed.length = worker.ring.issued.length
  whole : ∀ flags, worker.control ≠ .setLoaded flags ∧
    worker.control ≠ .clearLoaded flags

namespace Guarded

variable {worker moved : KernelWorker} {testing past : Prop}

theorem mono (hguarded : worker.Guarded testing past)
    {testing' past' : Prop} (htesting : testing' → testing)
    (hpast : past' → past) :
    worker.Guarded testing' past' where
  queued := hguarded.queued
  needs := hguarded.needs
  starts := fun h => hguarded.starts (htesting h)
  asleep := by
    intro hsleeps htask
    obtain ⟨hnot, hempty⟩ := hguarded.asleep hsleeps htask
    exact ⟨fun h => hnot (hpast h), hempty⟩
  whole := hguarded.whole

/-- A worker without an advertisement is not about to sleep. -/
theorem of_not_needs (hguarded : worker.Guarded testing past)
    (hneeds : ¬ NeedsWakeup worker.flags)
    {testing' past' : Prop} (htesting : testing' → testing) :
    worker.Guarded testing' past' where
  queued := hguarded.queued
  needs := hguarded.needs
  starts := fun h => hguarded.starts (htesting h)
  asleep := fun hsleeps _ =>
    absurd (hguarded.needs hsleeps.declared) hneeds
  whole := hguarded.whole

theorem orStart (hguarded : worker.Guarded testing past)
    {testing' past' : Prop} (hpast : past' → past) :
    ({ worker with flags := worker.flags ||| escaStartWakeup } :
      KernelWorker).Guarded testing' past' where
  queued := hguarded.queued
  needs := fun h => (needsWakeup_or_start _).mpr (hguarded.needs h)
  starts := fun _ => startsWakeup_set _
  asleep := (hguarded.mono id hpast).asleep
  whole := hguarded.whole

theorem andStart (hguarded : worker.Guarded testing past)
    {testing' past' : Prop} (htesting : ¬ testing')
    (hpast : past' → past) :
    ({ worker with flags := worker.flags &&& ~~~escaStartWakeup } :
      KernelWorker).Guarded testing' past' where
  queued := hguarded.queued
  needs := fun h => (needsWakeup_and_start _).mpr (hguarded.needs h)
  starts := fun h => absurd h htesting
  asleep := (hguarded.mono id hpast).asleep
  whole := hguarded.whole

theorem afterWakeUp (hguarded : worker.Guarded testing past)
    {testing' past' : Prop} (htesting : ¬ testing') :
    worker.wakeUp.Guarded testing' past' := by
  have htask := worker.wakeUp_task hguarded.queued
  constructor
  · rw [htask]
    intro h
    contradiction
  · rw [wakeUp_control, wakeUp_flags]
    exact hguarded.needs
  · exact fun h => absurd h htesting
  · rw [htask]
    intro _ h
    contradiction
  · rw [wakeUp_control]
    exact hguarded.whole

/-- Past its wake-up a worker is awake, whatever happens to its ring. -/
theorem withRing (hguarded : worker.Guarded testing past)
    (hpast : past) (ring : Ring) {testing' past' : Prop}
    (htesting : testing' → testing) :
    ({ worker with ring := ring } : KernelWorker).Guarded
      testing' past' where
  queued := hguarded.queued
  needs := hguarded.needs
  starts := fun h => hguarded.starts (htesting h)
  asleep := fun hsleeps htask =>
    absurd hpast (hguarded.asleep hsleeps htask).1
  whole := hguarded.whole

theorem afterBatch (hguarded : worker.Guarded testing past)
    (hflags : moved.flags = worker.flags)
    (htask : moved.task = worker.task)
    (hqueued : moved.queued = worker.queued)
    (hcontrol : moved.control.InBatch) :
    moved.Guarded testing past := by
  constructor
  · rw [htask, hqueued]
    exact hguarded.queued
  · intro hdeclared
    cases hpc : moved.control <;> rw [hpc] at hcontrol hdeclared <;>
      first
      | exact hdeclared.elim
      | exact hcontrol.elim
  · rw [hflags]
    exact hguarded.starts
  · rintro (hpc | hpc)
    · rw [hpc] at hcontrol
      exact hcontrol.elim
    · rw [hpc] at hcontrol
      exact hcontrol.elim
  · intro flags
    constructor
    · intro hpc
      rw [hpc] at hcontrol
      exact hcontrol.elim
    · intro hpc
      rw [hpc] at hcontrol
      exact hcontrol.elim

/-- Outside the points of a sleep only the wait queue and the advertisement
matter. -/
theorem of_awake
    (hqueued : moved.task = .interruptible → moved.queued = true)
    (hneeds : moved.control.Declared → NeedsWakeup moved.flags)
    (hstarts : testing → StartsWakeup moved.flags)
    (hsleeps : ¬ moved.control.Sleeps)
    (hwhole : ∀ flags, moved.control ≠ .setLoaded flags ∧
      moved.control ≠ .clearLoaded flags) :
    moved.Guarded testing past where
  queued := hqueued
  needs := hneeds
  starts := hstarts
  asleep := fun h _ => absurd h hsleeps
  whole := hwhole

theorem afterIdle (hguarded : worker.Guarded testing past)
    (hcommit : worker.control = .advertised →
      worker.ring.cursorEntry.rstatus = .empty →
        ¬ past ∧
          worker.ring.executed.length = worker.ring.issued.length)
    (hmove : IdleMove .atomic worker moved) :
    moved.Guarded testing past := by
  cases hmove with
  | spin hcontrol => exact hguarded.afterBatch rfl rfl rfl trivial
  | expire hcontrol =>
      exact of_awake hguarded.queued (fun h => h.elim) hguarded.starts
        (by simp [WorkerControl.Sleeps]) (by simp)
  | prepare hcontrol =>
      exact of_awake (fun _ => rfl) (fun h => h.elim) hguarded.starts
        (by simp [WorkerControl.Sleeps]) (by simp)
  | setWhole hcontrol haccess =>
      refine of_awake hguarded.queued (fun _ => needsWakeup_set _) ?_
        (by simp [WorkerControl.Sleeps]) (by simp)
      exact fun h => (startsWakeup_or_need _).mpr (hguarded.starts h)
  | setLoad hcontrol haccess => contradiction
  | setStore flags hcontrol =>
      exact absurd hcontrol (hguarded.whole flags).1
  | commit hcontrol hempty =>
      have hneeds : NeedsWakeup worker.flags :=
        hguarded.needs (by rw [hcontrol]; trivial)
      exact ⟨hguarded.queued, fun _ => hneeds, hguarded.starts,
        fun _ _ => hcommit hcontrol hempty, by simp⟩
  | cancel hcontrol =>
      exact of_awake hguarded.queued (fun h => h.elim) hguarded.starts
        (by simp [WorkerControl.Sleeps]) (by simp)
  | sleep hcontrol htask =>
      have hneeds : NeedsWakeup worker.flags :=
        hguarded.needs (by rw [hcontrol]; trivial)
      exact ⟨hguarded.queued, fun _ => hneeds, hguarded.starts,
        fun _ => hguarded.asleep (Or.inl hcontrol), by simp⟩
  | leave hcontrol htask =>
      exact of_awake hguarded.queued (fun h => h.elim) hguarded.starts
        (by simp [WorkerControl.Sleeps]) (by simp)
  | finish hcontrol =>
      exact of_awake (by simp [finishWait]) (fun h => h.elim)
        hguarded.starts (by simp [WorkerControl.Sleeps]) (by simp)
  | clearWhole hcontrol haccess =>
      refine of_awake hguarded.queued (fun h => h.elim) ?_
        (by simp [WorkerControl.Sleeps]) (by simp)
      exact fun h => (startsWakeup_and_need _).mpr (hguarded.starts h)
  | clearLoad hcontrol haccess => contradiction
  | clearStore flags hcontrol =>
      exact absurd hcontrol (hguarded.whole flags).2

end Guarded

end KernelWorker

namespace System

/-- The segment is open and `batch_start` is past the wake-up of ring `k`. -/
def PastWakeup (sys : System κ μ) (k : ℤ) : Prop :=
  sys.inSegment = true ∧ ¬ sys.user.BeforeWakeup k

instance (sys : System κ μ) (k : ℤ) : Decidable (sys.PastWakeup k) :=
  inferInstanceAs (Decidable (_ ∧ ¬ _))

/-- The worker whose next step is a re-check that reads `BENTRY_EMPTY`. -/
def emptyRecheck (sys : System κ μ) : SystemAction κ → Option ℤ
  | .worker k _ _ =>
      if (sys.workers k).control = .advertised ∧
          (sys.ring k).cursorEntry.rstatus = .empty then some k
      else none
  | _ => none

/-- No re-check reads `BENTRY_EMPTY` in an open segment whose `batch_start` is
past the worker's wake-up. -/
def RechecksInTime (sys : System κ μ) (action : SystemAction κ) :
    Prop :=
  ∀ k ∈ sys.emptyRecheck action, ¬ sys.PastWakeup k

instance (sys : System κ μ) (action : SystemAction κ) :
    Decidable (sys.RechecksInTime action) :=
  Option.decidableForallMem _

/-- With atomic flag updates the user thread never holds a loaded flag word,
and it is inside a wrapped call only in an open segment. -/
structure UserWhole (sys : System κ μ) : Prop where
  segment : ¬ sys.user.Outside → sys.inSegment = true
  loaded : ∀ j flags, sys.user ≠ .startSetLoaded j flags ∧
    sys.user ≠ .startClearLoaded j flags

def Guards (sys : System κ μ) (k : ℤ) : Prop :=
  (sys.workers k).Guarded (sys.user = .wakeupTest k) (sys.PastWakeup k)

namespace Guards

/-- A step that leaves worker `k` alone and does not pass its wake-up. -/
theorem of_sameWorker {k : ℤ} (hguards : sys.Guards k)
    (hworker : next.workers k = sys.workers k)
    (htesting : next.user = .wakeupTest k → sys.user = .wakeupTest k)
    (hpast : next.PastWakeup k → sys.PastWakeup k) :
    next.Guards k := by
  unfold Guards
  rw [hworker]
  exact hguards.mono htesting hpast

/-- A ring action of the user thread, which is past all wake-ups then. -/
theorem afterOnRing {k idx : ℤ} (hguards : sys.Guards k)
    {ringAction : RingAction}
    (hmoved : sys.onRing dep idx ringAction = some next)
    (hpast : sys.PastWakeup k) {moved : System κ μ}
    (hworkers : moved.workers = next.workers)
    (htesting : moved.user ≠ .wakeupTest k) :
    moved.Guards k := by
  obtain ⟨ring, _, rfl⟩ := onRing_frame hmoved
  unfold Guards
  rw [hworkers]
  by_cases hk : k = idx
  · subst idx
    rw [setWorker_self]
    exact hguards.withRing hpast ring (fun h => absurd h htesting)
  · rw [setWorker_of_ne _ hk]
    exact hguards.mono (fun h => absurd h htesting) (fun _ => hpast)

/-- A library step that does not carry `batch_start` past ring `k`. -/
theorem past_of_before {k : ℤ} {user : UserPc κ}
    (hsegment : next.inSegment = sys.inSegment)
    (huser : next.user = user)
    (hbefore : sys.user.BeforeWakeup k → user.BeforeWakeup k) :
    next.PastWakeup k → sys.PastWakeup k := by
  rintro ⟨hopen, hafter⟩
  rw [hsegment] at hopen
  rw [huser] at hafter
  exact ⟨hopen, fun h => hafter (hbefore h)⟩

theorem startAt_before {k j : ℤ} (hset : dep.InSet k) (hlt : j < k) :
    (dep.startAt (j + 1)).BeforeWakeup k :=
  dep.startAt_beforeWakeup hset (by omega)

theorem afterTestSkipped {k j : ℤ} (hguards : sys.Guards k)
    (hset : dep.InSet k) (hpc : sys.user = .startTest j)
    (hneeds : ¬ NeedsWakeup (sys.workers j).flags) :
    ({ sys with user := dep.startAt (j + 1) } :
      System κ μ).Guards k := by
  have htesting := dep.startAt_ne_wakeupTest (j + 1) k
  by_cases hj : j = k
  · subst j
    exact hguards.of_not_needs hneeds (fun h => absurd h htesting)
  · refine hguards.of_sameWorker rfl (fun h => absurd h htesting)
      (past_of_before rfl rfl ?_)
    rw [hpc]
    intro hle
    exact startAt_before hset (lt_of_le_of_ne hle hj)

theorem afterSet {k j : ℤ} (hguards : sys.Guards k)
    (hpc : sys.user = .startSet j) :
    ({ sys.setFlags j ((sys.workers j).flags ||| escaStartWakeup) with
      user := .wakeupTest j } : System κ μ).Guards k := by
  have hpast :
      ({ sys.setFlags j ((sys.workers j).flags ||| escaStartWakeup) with
        user := .wakeupTest j } : System κ μ).PastWakeup k →
        sys.PastWakeup k :=
    past_of_before rfl rfl (by rw [hpc]; exact id)
  by_cases hk : k = j
  · subst j
    unfold Guards
    simp only [setFlags, setWorker_self]
    exact hguards.orStart hpast
  · refine hguards.of_sameWorker (sys.setWorker_of_ne hk _) ?_ hpast
    intro h
    injection h with h
    exact absurd h.symm hk

theorem afterWake {k j : ℤ} (hguards : sys.Guards k)
    (hpc : sys.user = .wakeup j) :
    ({ sys.setWorker j (sys.workers j).wakeUp with
      user := .startClear j } : System κ μ).Guards k := by
  by_cases hk : k = j
  · subst j
    unfold Guards
    simp only [setWorker_self]
    exact hguards.afterWakeUp (by simp)
  · refine hguards.of_sameWorker (sys.setWorker_of_ne hk _) (by simp)
      (past_of_before rfl rfl ?_)
    rw [hpc]
    intro hle
    exact lt_of_le_of_ne hle (Ne.symm hk)

theorem afterClear {k j : ℤ} (hguards : sys.Guards k)
    (hset : dep.InSet k) (hpc : sys.user = .startClear j) :
    ({ sys.setFlags j
        ((sys.workers j).flags &&& ~~~escaStartWakeup) with
      user := dep.startAt (j + 1) } : System κ μ).Guards k := by
  have htesting := dep.startAt_ne_wakeupTest (j + 1) k
  have hpast :
      ({ sys.setFlags j
          ((sys.workers j).flags &&& ~~~escaStartWakeup) with
        user := dep.startAt (j + 1) } : System κ μ).PastWakeup k →
        sys.PastWakeup k :=
    past_of_before rfl rfl (by rw [hpc]; exact startAt_before hset)
  by_cases hk : k = j
  · subst j
    unfold Guards
    simp only [setFlags, setWorker_self]
    exact hguards.andStart htesting hpast
  · exact hguards.of_sameWorker (sys.setWorker_of_ne hk _)
      (fun h => absurd h htesting) hpast

theorem afterLibrary {k : ℤ} (hguards : sys.Guards k)
    (hset : dep.InSet k) (hwhole : sys.UserWhole)
    (hmove : LibraryMove dep .atomic sys next) :
    next.Guards k := by
  cases hmove with
  | testTaken j hpc =>
      exact hguards.of_sameWorker rfl (by simp)
        (past_of_before rfl rfl (by rw [hpc]; exact id))
  | testSkipped j hpc hneeds =>
      exact hguards.afterTestSkipped hset hpc hneeds
  | setWhole j hpc haccess => exact hguards.afterSet hpc
  | setLoad j hpc haccess => contradiction
  | setStore j flags hpc => exact absurd hpc (hwhole.loaded j flags).1
  | wakeupTaken j hpc =>
      exact hguards.of_sameWorker rfl (by simp)
        (past_of_before rfl rfl (by rw [hpc]; exact id))
  | wakeupSkipped j hpc hstarts =>
      have hj : j ≠ k := by
        rintro rfl
        exact hstarts (hguards.starts hpc)
      refine hguards.of_sameWorker rfl (by simp)
        (past_of_before rfl rfl ?_)
      rw [hpc]
      intro hle
      exact lt_of_le_of_ne hle hj
  | wake j hpc => exact hguards.afterWake hpc
  | clearWhole j hpc haccess => exact hguards.afterClear hset hpc
  | clearLoad j hpc haccess => contradiction
  | clearStore j flags hpc => exact absurd hpc (hwhole.loaded j flags).2
  | flushed hpc =>
      exact hguards.of_sameWorker rfl (by simp)
        (past_of_before rfl rfl (by rw [hpc]; exact id))

/-- Inside a wrapped call the user thread is past all wake-ups. -/
theorem past_of_inside {k : ℤ} (hwhole : sys.UserWhole)
    (hinside : ¬ sys.user.Outside) : sys.PastWakeup k :=
  ⟨hwhole.segment hinside, fun hbefore => hinside hbefore.outside⟩

theorem afterUser {k : ℤ} (hguards : sys.Guards k)
    (hset : dep.InSet k) (hwhole : sys.UserWhole)
    (hstep : sys.userStep dep .atomic = some next) :
    next.Guards k := by
  rcases userStep_cases hstep with
    hmove | ⟨idx, source, entry, moved, hpc, hmoved, rfl⟩ |
      ⟨idx, moved, hpc, hmoved, rfl⟩
  · exact hguards.afterLibrary hset hwhole hmove
  · have hpast : sys.PastWakeup k :=
      past_of_inside hwhole (by rw [hpc]; exact id)
    exact hguards.afterOnRing hmoved hpast rfl (by simp)
  · have hpast : sys.PastWakeup k :=
      past_of_inside hwhole (by rw [hpc]; exact id)
    exact hguards.afterOnRing hmoved hpast rfl (by simp)

theorem afterCall {k : ℤ} (hguards : sys.Guards k) {source : κ}
    (hready : sys.user = .ready)
    (hstep : sys.call dep source = some next) :
    next.Guards k := by
  rcases call_cases hstep with ⟨hsegment, queued, hqueued, rfl⟩ | ⟨_, rfl⟩
  · have hpast : sys.PastWakeup k := by
      refine ⟨hsegment, ?_⟩
      rw [hready]
      exact id
    exact hguards.afterOnRing hqueued hpast rfl (by simp)
  · exact hguards.of_sameWorker rfl id id

theorem afterWorker {k n : ℤ} (hguards : sys.Guards k)
    {expired : Bool} {sysret : ℤ} (hwhole : sys.UserWhole)
    (hrecorded : sys.Recorded dep) (hgood : sys.AllGood dep)
    (hshares : dep.SharesEntries)
    (hintime : sys.RechecksInTime (.worker n expired sysret))
    (hframe : WorkerFrame .atomic sys next n) :
    next.Guards k := by
  have hpast : next.PastWakeup k → sys.PastWakeup k := by
    unfold PastWakeup
    rw [hframe.user_eq, hframe.inSegment_eq]
    exact id
  by_cases hk : k = n
  · subst n
    have hguarded :
        (next.workers k).Guarded (sys.user = .wakeupTest k)
          (sys.PastWakeup k) := by
      rcases hframe.own with hidle | ⟨hflags, htask, hqueued, hbatch⟩
      · refine hguards.afterIdle ?_ hidle
        intro hcontrol hempty
        have hnot : ¬ sys.PastWakeup k :=
          hintime k (by
            simp only [emptyRecheck, hcontrol, true_and]
            exact if_pos hempty)
        have houtside : sys.user.Outside := by
          by_contra hinside
          exact hnot (past_of_inside hwhole hinside)
        have hidle := hrecorded.producer k
        rw [UserPc.producerAt_of_outside houtside] at hidle
        exact ⟨hnot,
          (hgood k).executed_length_of_empty hshares hempty hidle⟩
      · exact hguards.afterBatch hflags htask hqueued hbatch
    exact hguarded.mono (by rw [hframe.user_eq]; exact id) hpast
  · exact hguards.of_sameWorker (hframe.others k hk)
      (by rw [hframe.user_eq]; exact id) hpast

end Guards

namespace UserWhole

theorem of_user (hwhole : sys.UserWhole)
    (huser : next.user = sys.user)
    (hsegment : next.inSegment = sys.inSegment) : next.UserWhole where
  segment := by
    rw [huser, hsegment]
    exact hwhole.segment
  loaded := by
    rw [huser]
    exact hwhole.loaded

theorem of_startAt {j : ℤ} (huser : next.user = dep.startAt j) :
    next.UserWhole where
  segment := by
    rw [huser]
    exact fun hinside => absurd (dep.startAt_outside j) hinside
  loaded := by
    intro k flags
    rw [huser]
    unfold Deployment.startAt
    split <;> simp

theorem afterLibrary (hwhole : sys.UserWhole)
    (hmove : LibraryMove dep .atomic sys next) :
    next.UserWhole := by
  cases hmove with
  | testSkipped j hpc hneeds => exact of_startAt rfl
  | setLoad j hpc haccess => contradiction
  | setStore j flags hpc => exact absurd hpc (hwhole.loaded j flags).1
  | clearWhole j hpc haccess => exact of_startAt rfl
  | clearLoad j hpc haccess => contradiction
  | clearStore j flags hpc => exact absurd hpc (hwhole.loaded j flags).2
  | _ => exact ⟨fun h => absurd trivial h, by simp⟩

theorem afterUser (hwhole : sys.UserWhole)
    (hstep : sys.userStep dep .atomic = some next) :
    next.UserWhole := by
  rcases userStep_cases hstep with
    hmove | ⟨idx, source, entry, moved, hpc, hmoved, rfl⟩ |
      ⟨idx, moved, hpc, hmoved, rfl⟩
  · exact hwhole.afterLibrary hmove
  · have hsegment := hwhole.segment (by rw [hpc]; exact id)
    obtain ⟨ring, _, rfl⟩ := onRing_frame hmoved
    exact ⟨fun _ => hsegment, by simp⟩
  · exact ⟨fun h => absurd trivial h, by simp⟩

theorem afterCall (hwhole : sys.UserWhole) {source : κ}
    (hstep : sys.call dep source = some next) :
    next.UserWhole := by
  rcases call_cases hstep with ⟨hsegment, queued, hqueued, rfl⟩ | ⟨_, rfl⟩
  · obtain ⟨ring, _, rfl⟩ := onRing_frame hqueued
    exact ⟨fun _ => hsegment, by simp⟩
  · exact hwhole.of_user rfl rfl

theorem afterStep (hwhole : sys.UserWhole) {action : SystemAction κ}
    (hstep : sys.step dep .atomic action = some next) :
    next.UserWhole := by
  cases action with
  | batchStart =>
      obtain ⟨_, rfl⟩ := step_batchStart hstep
      exact of_startAt rfl
  | call source => exact hwhole.afterCall (step_call hstep).2
  | batchFlush =>
      obtain ⟨hready, rfl⟩ := step_batchFlush hstep
      unfold batchFlush
      split
      · refine ⟨?_, ?_⟩
        · rw [hready]
          exact fun h => absurd trivial h
        · simp [hready]
      · exact ⟨fun h => absurd trivial h, by simp⟩
  | user => exact hwhole.afterUser hstep
  | worker n expired sysret =>
      have hframe := workerStep_frame (step_worker hstep).2
      exact hwhole.of_user hframe.user_eq hframe.inSegment_eq

end UserWhole

theorem Guards.afterStep {k : ℤ} (hguards : sys.Guards k)
    (hset : dep.InSet k) (hwhole : sys.UserWhole)
    (hrecorded : sys.Recorded dep) (hgood : sys.AllGood dep)
    (hshares : dep.SharesEntries)
    {action : SystemAction κ} (hintime : sys.RechecksInTime action)
    (hstep : sys.step dep .atomic action = some next) :
    next.Guards k := by
  cases action with
  | batchStart =>
      obtain ⟨_, rfl⟩ := step_batchStart hstep
      refine hguards.of_sameWorker rfl ?_ ?_
      · exact fun h => absurd h (dep.startAt_ne_wakeupTest _ _)
      · exact fun hpast =>
          absurd (dep.startAt_beforeWakeup hset hset.1) hpast.2
  | call source =>
      obtain ⟨hready, hcall⟩ := step_call hstep
      exact hguards.afterCall hready hcall
  | batchFlush =>
      obtain ⟨hready, rfl⟩ := step_batchFlush hstep
      unfold batchFlush
      split
      · refine hguards.of_sameWorker rfl id ?_
        exact fun hpast => absurd hpast.1 (by simp)
      · refine hguards.of_sameWorker rfl (by simp) ?_
        exact fun hpast => absurd hpast.1 (by simp)
  | user => exact hguards.afterUser hset hwhole hstep
  | worker n expired sysret =>
      exact hguards.afterWorker hwhole hrecorded hgood hshares hintime
        (workerStep_frame (step_worker hstep).2)

/-- Everything that holds along a run with timely re-checks. -/
structure Vigilant (dep : Deployment κ μ) (sys : System κ μ) :
    Prop where
  recorded : sys.Recorded dep
  good : sys.AllGood dep
  whole : sys.UserWhole
  guards : ∀ k, dep.InSet k → sys.Guards k

theorem Vigilant.afterStep (hvigilant : sys.Vigilant dep)
    (hshares : dep.SharesEntries) {action : SystemAction κ}
    (hsafe : sys.NoOverrun dep action)
    (hintime : sys.RechecksInTime action)
    (hstep : sys.step dep .atomic action = some next) :
    next.Vigilant dep where
  recorded := hvigilant.recorded.afterEffect (step_effect hstep)
  good := hvigilant.good.afterEffect hsafe (step_effect hstep)
  whole := hvigilant.whole.afterStep hstep
  guards := fun k hset =>
    (hvigilant.guards k hset).afterStep hset hvigilant.whole
      hvigilant.recorded hvigilant.good hshares hintime hstep

end System

end Saio
