import Saio.WorkerMoves
import Saio.CompletionSignal
import Saio.BatchWalk
import Saio.LostWakeup
import Mathlib.Tactic

/-!
# How long a call waits

A worker makes a bounded number of steps between two executions: at most it
finishes its completion scan, publishes the head, polls, takes a snapshot and
is in its batch loop again, or leaves the idle path first because it finds the
slot at its cursor busy.  `phase` counts what is left of this way, and the
rank of a position adds `RATIO + 5` for every entry in front of it.

Nobody else can raise the rank.  So an entry whose call has returned is
executed within a bounded number of steps of its worker, however the others
are scheduled, and a call that spins on a full ring is released within such a
bound.
-/

namespace Saio

variable {κ μ : Type} {dep : Deployment κ μ} {access : FlagAccess}
  {sys next final : System κ μ} {k : ℤ}

/-! ## Where a worker stands -/

namespace KernelWorker

variable {worker moved : KernelWorker} {cfg : TableConfig}

/-- The idle path starts at a poll, and the completion scan is inside the
batch loop. -/
def Aligned (worker : KernelWorker) : Prop :=
  match worker.control with
  | .running => True
  | .scanning _ => worker.ring.worker = .drain
  | _ => worker.ring.worker = .poll

/-- A worker that has decided to sleep has been woken. -/
def Awake (worker : KernelWorker) : Prop :=
  worker.control.Sleeps → worker.task = .running

/-- What nobody but the worker itself changes. -/
structure SamePoint (worker moved : KernelWorker) : Prop where
  control_eq : moved.control = worker.control
  point_eq : moved.ring.worker = worker.ring.worker
  submitted_eq : moved.ring.submitted = worker.ring.submitted
  executed_eq : moved.ring.executed = worker.ring.executed
  cursor_eq : moved.ring.cursor = worker.ring.cursor
  head_eq : moved.ring.table.head = worker.ring.table.head

theorem ForeignMove.samePoint (hmove : ForeignMove cfg worker moved) :
    SamePoint worker moved := by
  cases hmove with
  | same => exact ⟨rfl, rfl, rfl, rfl, rfl, rfl⟩
  | flags flags => exact ⟨rfl, rfl, rfl, rfl, rfl, rfl⟩
  | wakeUp =>
      constructor
      · exact wakeUp_control worker
      all_goals rw [wakeUp_ring]
  | produce action ring haction hring =>
      rcases haction with ⟨call, rfl⟩ | rfl | rfl
      · obtain ⟨_, rfl⟩ := Ring.step_write hring
        exact ⟨rfl, rfl, rfl, rfl, rfl, rfl⟩
      · obtain ⟨i, j, call, _, _, rfl⟩ := Ring.step_advance hring
        refine ⟨rfl, rfl, rfl, rfl, rfl, ?_⟩
        simp only [Ring.advance, EscaTable.updateIndex]
        split
        · rfl
        · rfl
      · obtain ⟨i, j, _, rfl⟩ := Ring.step_storeBusy hring
        exact ⟨rfl, rfl, rfl, rfl, rfl, rfl⟩

theorem Aligned.afterForeign (haligned : worker.Aligned)
    (hmove : ForeignMove cfg worker moved) : moved.Aligned := by
  have hsame := hmove.samePoint
  unfold Aligned
  rw [hsame.control_eq, hsame.point_eq]
  exact haligned

/-- Nobody but the task itself makes it interruptible. -/
theorem ForeignMove.running (hmove : ForeignMove cfg worker moved)
    (htask : worker.task = .running) : moved.task = .running := by
  cases hmove with
  | same => exact htask
  | flags flags => exact htask
  | produce action ring haction hring => exact htask
  | wakeUp =>
      unfold KernelWorker.wakeUp
      split
      next => rfl
      next => exact htask

theorem Awake.afterForeign (hawake : worker.Awake)
    (hmove : ForeignMove cfg worker moved) : moved.Awake := by
  intro hsleeps
  rw [hmove.samePoint.control_eq] at hsleeps
  exact hmove.running (hawake hsleeps)

theorem Aligned.afterOwn (haligned : worker.Aligned)
    (hmove : OwnMove dep access k worker moved) : moved.Aligned := by
  cases hmove with
  | sawEmpty _ hpoll _ => exact hpoll
  | sawBusy hcontrol => simp [Aligned, hcontrol]
  | snapshot hcontrol => simp [Aligned, hcontrol]
  | execute _ hdrain _ =>
      unfold Aligned
      split
      next => trivial
      next => exact hdrain
      next hrunning hscanning =>
        by_cases hleader : k.tmod dep.ratio = 0
        · exact absurd (if_pos hleader) (hscanning k)
        · exact absurd (if_neg hleader) hrunning
  | publish hcontrol => simp [Aligned, hcontrol]
  | scanOn n hcontrol _ =>
      simp only [Aligned, hcontrol] at haligned
      exact haligned
  | scanEnd n _ => trivial
  | idle hmove =>
      cases hmove with
      | spin hcontrol => trivial
      | clearWhole hcontrol => trivial
      | clearStore flags hcontrol => trivial
      | leave hcontrol =>
          rcases hcontrol with hcontrol | hcontrol <;>
          · simp only [Aligned, hcontrol] at haligned
            exact haligned
      | expire hcontrol | prepare hcontrol | setWhole hcontrol
      | setLoad hcontrol | setStore _ hcontrol | commit hcontrol
      | cancel hcontrol | sleep hcontrol | finish hcontrol
      | clearLoad hcontrol =>
          simp only [Aligned, hcontrol] at haligned
          exact haligned

/-- A worker that finds the slot at its cursor busy does not go to sleep. -/
theorem Awake.afterOwn (hawake : worker.Awake)
    (hbusy : worker.ring.cursorEntry.rstatus = .busy)
    (hmove : OwnMove dep access k worker moved) : moved.Awake := by
  intro hsleeps
  cases hmove with
  | sawEmpty => simp [WorkerControl.Sleeps] at hsleeps
  | sawBusy hcontrol | snapshot hcontrol | publish hcontrol =>
      simp [WorkerControl.Sleeps, hcontrol] at hsleeps
  | execute hcontrol =>
      simp only [WorkerControl.Sleeps] at hsleeps
      split at hsleeps <;> simp at hsleeps
  | scanOn | scanEnd => simp [WorkerControl.Sleeps] at hsleeps
  | idle hmove =>
      cases hmove with
      | commit _ hempty =>
          rw [hbusy] at hempty
          contradiction
      | sleep hcontrol htask =>
          have hrunning := hawake (Or.inl hcontrol)
          rw [htask] at hrunning
          contradiction
      | _ => simp [WorkerControl.Sleeps] at hsleeps

/-- How many steps are left, at most, to the next execution; the order is
that of the source, from an empty poll through the idle path and from the end
of an execution through the completion scan. -/
def phase (ratio : ℕ) (k : ℤ) (worker : KernelWorker) : ℕ :=
  match worker.control with
  | .running =>
      match worker.ring.worker with
      | .drain => if worker.ring.submitted = 0 then 3 else 0
      | .poll => 2
      | .snapshot => 1
  | .scanning n => (k + ratio - n).toNat + 4
  | .clearLoaded _ => 3
  | .clearing => 4
  | .finishing => 5
  | .blocked => 6
  | .committed => 6
  | .advertised => 6
  | .setLoaded _ => 7
  | .prepared => 8
  | .expired => 9
  | .sawEmpty => 10

/-- The steps left to the execution of the first `target` entries. -/
def rank (ratio : ℕ) (k : ℤ) (target : ℕ) (worker : KernelWorker) : ℕ :=
  (target - worker.ring.executed.length) * (ratio + 5) +
    worker.phase ratio k

theorem SamePoint.rank_eq (hsame : SamePoint worker moved)
    (ratio target : ℕ) :
    moved.rank ratio k target = worker.rank ratio k target := by
  unfold rank phase
  rw [hsame.control_eq, hsame.point_eq, hsame.submitted_eq,
    hsame.executed_eq]

/-- In the batch loop. -/
theorem phase_le_of_running {ratio : ℕ}
    (hcontrol : worker.control = .running)
    (hdrain : worker.ring.worker = .drain) :
    worker.phase ratio k ≤ 3 := by
  simp only [phase, hcontrol, hdrain]
  split <;> omega

theorem publish_phase_lt (hcontrol : worker.control = .running)
    (hdrain : worker.ring.worker = .drain)
    (hsubmitted : worker.ring.submitted = 0) (ratio : ℕ) :
    ({ worker with ring := worker.ring.publish } :
      KernelWorker).phase ratio k < worker.phase ratio k := by
  have hpoint : worker.ring.publish.worker = .poll := rfl
  simp only [phase, hcontrol, hdrain, hpoint, if_pos hsubmitted]
  exact Nat.lt_succ_self _

theorem scanEnd_phase_lt {n : ℤ} (hcontrol : worker.control = .scanning n)
    (hdrain : worker.ring.worker = .drain) (ratio : ℕ) :
    ({ worker with control := .running } : KernelWorker).phase ratio k <
      worker.phase ratio k := by
  have hle : ({ worker with control := .running } :
      KernelWorker).phase ratio k ≤ 3 :=
    phase_le_of_running rfl hdrain
  have hscan : worker.phase ratio k ≥ 4 := by
    simp only [phase, hcontrol]
    omega
  omega

/-- The snapshot of a ring with a pending entry counts at least one. -/
theorem snapshot_submitted_ne_zero {ring : Ring}
    (hgood : ring.Good cfg) (hshort : cfg.capacity ≤ 32767)
    (hpending : ring.executed.length < ring.issued.length) :
    (ring.snapshot cfg).submitted ≠ 0 := by
  have hlap := hgood.issued_lt
  have hcount := batchCount_of_slotAt hgood.cursor_eq hgood.tail_eq
    hgood.executed_le hlap
  change toShort (batchCount cfg ring.i ring.j ring.table.tailTable
    ring.table.tailEntry) ≠ 0
  rw [hcount, toShort_of_le (by omega) (by omega)]
  omega

/-- A step of the idle path leads to the next poll, unless the worker goes to
sleep. -/
theorem idleMove_phase_lt (hmove : IdleMove access worker moved)
    (haligned : worker.Aligned) (hawake : worker.Awake)
    (hbusy : worker.ring.cursorEntry.rstatus = .busy) (ratio : ℕ) :
    moved.phase ratio k < worker.phase ratio k := by
  cases hmove with
  | commit _ hempty =>
      rw [hbusy] at hempty
      contradiction
  | sleep hcontrol htask =>
      have hrunning := hawake (Or.inl hcontrol)
      rw [htask] at hrunning
      contradiction
  | leave hcontrol => rcases hcontrol with hcontrol | hcontrol <;>
      simp [phase, hcontrol]
  | spin hcontrol | clearWhole hcontrol | clearStore _ hcontrol =>
      simp only [Aligned, hcontrol] at haligned
      simp [phase, hcontrol, haligned]
  | expire hcontrol | prepare hcontrol | setWhole hcontrol
  | setLoad hcontrol | setStore _ hcontrol | cancel hcontrol
  | finish hcontrol | clearLoad hcontrol =>
      simp [phase, hcontrol]

theorem phase_execute_le (dep : Deployment κ μ) (k : ℤ)
    (worker : KernelWorker)
    (hdrain : worker.ring.worker = .drain) :
    ({ worker with
      ring := worker.ring.execute dep.toTableConfig
      control :=
        if k.tmod dep.ratio = 0 then .scanning k else .running } :
      KernelWorker).phase dep.ratio k ≤ dep.ratio + 4 := by
  by_cases hleader : k.tmod dep.ratio = 0
  · simp only [if_pos hleader, phase]
    omega
  · simp only [if_neg hleader]
    have hpoint : ({ worker with
        ring := worker.ring.execute dep.toTableConfig
        control := .running } : KernelWorker).phase dep.ratio k ≤ 3 :=
      phase_le_of_running rfl hdrain
    omega

/-- Every step of the worker towards a pending entry at its cursor lowers the
rank. -/
theorem OwnMove.rank_lt (hmove : OwnMove dep access k worker moved)
    (hgood : worker.ring.Good dep.toTableConfig)
    (hshort : dep.capacity ≤ 32767)
    (haligned : worker.Aligned) (hawake : worker.Awake)
    (hbusy : worker.ring.cursorEntry.rstatus = .busy)
    (hpending : worker.ring.executed.length < worker.ring.issued.length)
    {target : ℕ} (htarget : worker.ring.executed.length < target) :
    moved.rank dep.ratio k target < worker.rank dep.ratio k target := by
  unfold rank
  cases hmove with
  | sawEmpty _ _ hempty =>
      rw [hbusy] at hempty
      contradiction
  | sawBusy hcontrol hpoll =>
      simp [phase, hcontrol, hpoll]
  | snapshot hcontrol hsnapshot =>
      have hne := snapshot_submitted_ne_zero hgood hshort hpending
      have hpoint :
          (worker.ring.snapshot dep.toTableConfig).worker = .drain := rfl
      simp only [phase, hcontrol, hsnapshot, hpoint, if_neg hne]
      exact Nat.lt_succ_self _
  | execute hcontrol hdrain hsubmitted =>
      have hle := phase_execute_le dep k worker hdrain
      have hexecuted : (worker.ring.execute
          dep.toTableConfig).executed.length =
          worker.ring.executed.length + 1 := by
        simp [Ring.execute]
      obtain ⟨rest, hrest⟩ : ∃ rest,
          target - worker.ring.executed.length = rest + 1 :=
        ⟨target - worker.ring.executed.length - 1, by omega⟩
      rw [hexecuted, hrest, Nat.add_mul, Nat.one_mul,
        show target - (worker.ring.executed.length + 1) = rest by omega]
      omega
  | publish hcontrol hdrain hsubmitted =>
      exact Nat.add_lt_add_left
        (publish_phase_lt hcontrol hdrain hsubmitted dep.ratio) _
  | scanOn n hcontrol hlast =>
      simp only [phase, hcontrol]
      omega
  | scanEnd n hcontrol =>
      simp only [Aligned, hcontrol] at haligned
      exact Nat.add_lt_add_left
        (scanEnd_phase_lt hcontrol haligned dep.ratio) _
  | idle hmove =>
      rw [hmove.ring_eq]
      exact Nat.add_lt_add_left
        (idleMove_phase_lt hmove haligned hawake hbusy dep.ratio) _

theorem OwnMove.executed_le (hmove : OwnMove dep access k worker moved) :
    worker.ring.executed.length ≤ moved.ring.executed.length := by
  cases hmove with
  | execute => simp [Ring.execute]
  | idle hmove => rw [hmove.ring_eq]
  | _ => exact le_rfl

end KernelWorker

/-! ## Calls that have returned -/

/-- The call at position `p` has stored its mark. -/
def Ring.Returned (p : ℕ) (ring : Ring) : Prop :=
  p < ring.issued.length ∧
    (p + 1 = ring.issued.length → ∀ i j, ring.producer ≠ .advanced i j)

/-- As long as a returned call is pending the slot at the cursor is busy. -/
theorem Ring.Good.cursor_busy {cfg : TableConfig} {ring : Ring}
    (hgood : ring.Good cfg) (hshares : cfg.SharesEntries) {p : ℕ}
    (hreturned : ring.Returned p)
    (hpending : ring.executed.length ≤ p) :
    ring.cursorEntry.rstatus = .busy := by
  obtain ⟨hissued, hmarked⟩ := hreturned
  unfold RingBase.cursorEntry
  rw [hgood.cursor_eq]
  rcases (hgood.contents hshares).status _ le_rfl (by omega) with
    hbusy | ⟨hlast, i, j, hproducer⟩
  · exact hbusy
  · exact absurd hproducer (hmarked (by omega) i j)

namespace KernelWorker

variable {worker moved : KernelWorker} {cfg : TableConfig} {p : ℕ}

theorem ForeignMove.returned (hmove : ForeignMove cfg worker moved)
    (hreturned : worker.ring.Returned p) : moved.ring.Returned p := by
  cases hmove with
  | same => exact hreturned
  | flags flags => exact hreturned
  | wakeUp => rwa [wakeUp_ring]
  | produce action ring haction hring =>
      obtain ⟨hissued, hmarked⟩ := hreturned
      rcases haction with ⟨call, rfl⟩ | rfl | rfl
      · obtain ⟨_, rfl⟩ := Ring.step_write hring
        exact ⟨hissued, fun _ _ _ hadvanced => by contradiction⟩
      · obtain ⟨i, j, call, _, _, rfl⟩ := Ring.step_advance hring
        refine ⟨?_, ?_⟩
        · simp only [Ring.advance, List.length_append,
            List.length_singleton]
          omega
        · simp only [Ring.advance, List.length_append,
            List.length_singleton]
          omega
      · obtain ⟨i, j, _, rfl⟩ := Ring.step_storeBusy hring
        exact ⟨hissued, fun _ _ _ hadvanced => by contradiction⟩

theorem OwnMove.returned (hmove : OwnMove dep access k worker moved)
    (hreturned : worker.ring.Returned p) : moved.ring.Returned p := by
  cases hmove with
  | idle hmove => rwa [hmove.ring_eq]
  | _ => exact hreturned

end KernelWorker

/-! ## Service -/

namespace System

/-- The call at position `p` of ring `k` has returned, and the worker of the
ring is on its way. -/
structure Serving (dep : Deployment κ μ) (k : ℤ) (p : ℕ)
    (sys : System κ μ) : Prop where
  good : sys.AllGood dep
  aligned : (sys.workers k).Aligned
  awake : (sys.workers k).Awake
  returned : (sys.ring k).Returned p

/-- The entry at position `p` of ring `k` is executed. -/
def Served (k : ℤ) (p : ℕ) (sys : System κ μ) : Prop :=
  p < (sys.ring k).executed.length

theorem executed_mono {action : SystemAction κ}
    (hstep : sys.step dep access action = some next) (k : ℤ) :
    (sys.ring k).executed.length ≤ (next.ring k).executed.length := by
  by_cases hown : action.isOf k = true
  · obtain ⟨expired, sysret, rfl⟩ :=
      SystemAction.eq_worker_of_isOf hown
    exact (step_ownMove hstep).executed_le
  · have hsame :=
      (step_foreignMove (by simpa using hown) hstep).samePoint
    exact (congrArg List.length hsame.executed_eq).ge

theorem Served.afterStep {p : ℕ} (hserved : sys.Served k p)
    {action : SystemAction κ}
    (hstep : sys.step dep access action = some next) :
    next.Served k p :=
  lt_of_lt_of_le hserved (executed_mono hstep k)

theorem Serving.progress {p : ℕ} (hserving : sys.Serving dep k p)
    (hshares : dep.SharesEntries) (hshort : dep.capacity ≤ 32767)
    {action : SystemAction κ}
    (hsafe : sys.NoOverrun dep action)
    (hstep : sys.step dep access action = some next) :
    next.Served k p ∨ next.Serving dep k p ∧
      (next.workers k).rank dep.ratio k (p + 1) +
          (if action.isOf k then 1 else 0) ≤
        (sys.workers k).rank dep.ratio k (p + 1) := by
  by_cases hdone : (sys.ring k).executed.length ≤ p
  · right
    have hgood := hserving.good.afterEffect hsafe (step_effect hstep)
    have hbusy := (hserving.good k).cursor_busy hshares
      hserving.returned hdone
    by_cases hown : action.isOf k = true
    · obtain ⟨expired, sysret, rfl⟩ :=
        SystemAction.eq_worker_of_isOf hown
      have hmove := step_ownMove hstep
      have hlower := hmove.rank_lt (hserving.good k) hshort
        hserving.aligned hserving.awake hbusy
        (lt_of_le_of_lt hdone hserving.returned.1)
        (Nat.lt_succ_of_le hdone)
      rw [if_pos hown]
      exact ⟨⟨hgood, hserving.aligned.afterOwn hmove,
        hserving.awake.afterOwn hbusy hmove,
        hmove.returned hserving.returned⟩, hlower⟩
    · have hmove := step_foreignMove (by simpa using hown) hstep
      rw [if_neg hown, hmove.samePoint.rank_eq]
      exact ⟨⟨hgood, hserving.aligned.afterForeign hmove,
        hserving.awake.afterForeign hmove,
        hmove.returned hserving.returned⟩, le_rfl⟩
  · exact Or.inl (lt_of_lt_of_le (Nat.lt_of_not_le hdone)
      (executed_mono hstep k))

/-- What holds along every run without overrun. -/
structure Steady (dep : Deployment κ μ) (sys : System κ μ) : Prop where
  recorded : sys.Recorded dep
  good : sys.AllGood dep
  aligned : ∀ k, (sys.workers k).Aligned
  scans : sys.ScansFromFirst dep

theorem aligned_afterStep {action : SystemAction κ}
    (haligned : (sys.workers k).Aligned)
    (hstep : sys.step dep access action = some next) :
    (next.workers k).Aligned := by
  by_cases hown : action.isOf k = true
  · obtain ⟨expired, sysret, rfl⟩ :=
      SystemAction.eq_worker_of_isOf hown
    exact haligned.afterOwn (step_ownMove hstep)
  · exact haligned.afterForeign
      (step_foreignMove (by simpa using hown) hstep)

theorem Steady.afterStep (hsteady : sys.Steady dep)
    {action : SystemAction κ} (hsafe : sys.NoOverrun dep action)
    (hstep : sys.step dep access action = some next) :
    next.Steady dep where
  recorded := hsteady.recorded.afterEffect (step_effect hstep)
  good := hsteady.good.afterEffect hsafe (step_effect hstep)
  aligned := fun k => aligned_afterStep (hsteady.aligned k) hstep
  scans := hsteady.scans.afterMove (step_notice hstep)

theorem Steady.returned (hsteady : sys.Steady dep) {p : ℕ}
    (hissued : p < (sys.ring k).issued.length)
    (houtside : sys.user ≠ .marking k) :
    (sys.ring k).Returned p := by
  refine ⟨hissued, fun _ i j hadvanced => ?_⟩
  have hproducer := hsteady.recorded.producer k
  rw [hadvanced] at hproducer
  unfold UserPc.ProducerAt at hproducer
  split at hproducer
  next idx source entry hpc =>
    by_cases hk : k = idx
    · obtain ⟨_, _, hwritten⟩ := hproducer.2.1 hk
      contradiction
    · exact absurd (hproducer.2.2 hk) (by simp)
  next idx hpc =>
    by_cases hk : k = idx
    · exact houtside (by rw [hpc, hk])
    · exact absurd (hproducer.2 hk) (by simp)
  next => contradiction

/-- A first write is drained, and two more are queued behind it. -/
def queuedWrites : List (SystemAction RedisCall) :=
  SystemAction.segmentStart oneWorkerSet ++
    SystemAction.wholeCall ⟨4, 64, 7⟩ ++
    SystemAction.workerSteps 0 false 6 ++
    SystemAction.wholeCall ⟨4, 96, 3⟩ ++
    SystemAction.wholeCall ⟨4, 128, 2⟩

end System

/-! ## A call that spins on a full ring -/

namespace KernelWorker

variable {worker moved : KernelWorker} {cfg : TableConfig}

theorem ForeignMove.issued_cases (hmove : ForeignMove cfg worker moved) :
    moved.ring.issued.length = worker.ring.issued.length ∨
      worker.ring.issued.length < moved.ring.issued.length := by
  cases hmove with
  | same => exact Or.inl rfl
  | flags flags => exact Or.inl rfl
  | wakeUp => exact Or.inl (by rw [wakeUp_ring])
  | produce action ring haction hring =>
      rcases haction with ⟨call, rfl⟩ | rfl | rfl
      · obtain ⟨_, rfl⟩ := Ring.step_write hring
        exact Or.inl rfl
      · obtain ⟨i, j, call, _, _, rfl⟩ := Ring.step_advance hring
        exact Or.inr (by simp [Ring.advance])
      · obtain ⟨i, j, _, rfl⟩ := Ring.step_storeBusy hring
        exact Or.inl rfl

theorem OwnMove.issued_eq (hmove : OwnMove dep access k worker moved) :
    moved.ring.issued = worker.ring.issued := by
  cases hmove with
  | idle hmove => rw [hmove.ring_eq]
  | _ => rfl

/-- With everything executed, a worker that has not published its head does so
after its scan. -/
theorem OwnMove.rank_lt_of_executed
    (hmove : OwnMove dep access k worker moved)
    (hgood : worker.ring.Good dep.toTableConfig)
    (haligned : worker.Aligned) (hdrain : worker.ring.worker = .drain)
    (hdone : worker.ring.issued.length ≤ worker.ring.executed.length)
    (target : ℕ) :
    moved.rank dep.ratio k target < worker.rank dep.ratio k target := by
  unfold rank
  cases hmove with
  | execute _ _ hsubmitted =>
      obtain ⟨_, _, hbound⟩ :=
        hgood.executed_lt_of_submitted hdrain hsubmitted
      omega
  | publish hcontrol _ hsubmitted =>
      exact Nat.add_lt_add_left
        (publish_phase_lt hcontrol hdrain hsubmitted dep.ratio) _
  | scanOn n hcontrol hlast =>
      simp only [phase, hcontrol]
      omega
  | scanEnd n hcontrol =>
      exact Nat.add_lt_add_left
        (scanEnd_phase_lt hcontrol hdrain dep.ratio) _
  | sawEmpty _ hpoll | sawBusy _ hpoll | snapshot _ hpoll =>
      rw [hdrain] at hpoll
      contradiction
  | idle hmove =>
      exfalso
      cases hmove with
      | leave hcontrol =>
          rcases hcontrol with hcontrol | hcontrol <;>
          · simp [Aligned, hcontrol, hdrain] at haligned
      | spin hcontrol | expire hcontrol | prepare hcontrol
      | setWhole hcontrol | setLoad hcontrol | setStore _ hcontrol
      | commit hcontrol | cancel hcontrol | sleep hcontrol
      | finish hcontrol | clearWhole hcontrol | clearLoad hcontrol
      | clearStore _ hcontrol =>
          simp [Aligned, hcontrol, hdrain] at haligned

/-- With everything executed nobody moves the cursor, and the head only moves
to it. -/
theorem OwnMove.head_of_executed
    (hmove : OwnMove dep access k worker moved)
    (hgood : worker.ring.Good dep.toTableConfig)
    (hdone : worker.ring.issued.length ≤ worker.ring.executed.length)
    (hhead : worker.ring.table.head = worker.ring.cursor) :
    moved.ring.table.head = moved.ring.cursor ∧
      moved.ring.executed = worker.ring.executed := by
  cases hmove with
  | execute _ hdrain hsubmitted =>
      obtain ⟨_, _, hbound⟩ :=
        hgood.executed_lt_of_submitted hdrain hsubmitted
      omega
  | publish => exact ⟨rfl, rfl⟩
  | idle hmove =>
      rw [hmove.ring_eq]
      exact ⟨hhead, rfl⟩
  | _ => exact ⟨hhead, rfl⟩

end KernelWorker

namespace System

/-- Another call has been issued to the ring, or all `n` issued ones are
executed and the head is published. -/
def Released (dep : Deployment κ μ) (k : ℤ) (n : ℕ)
    (sys : System κ μ) : Prop :=
  n < (sys.ring k).issued.length ∨
    sys.AllGood dep ∧ (sys.ring k).issued.length = n ∧
      (sys.ring k).executed.length = n ∧
      (sys.ring k).table.head = (sys.ring k).cursor

theorem Released.afterStep {n : ℕ} (hreleased : sys.Released dep k n)
    {action : SystemAction κ} (hsafe : sys.NoOverrun dep action)
    (hstep : sys.step dep access action = some next) :
    next.Released dep k n := by
  by_cases hown : action.isOf k = true
  · obtain ⟨expired, sysret, rfl⟩ :=
      SystemAction.eq_worker_of_isOf hown
    have hmove := step_ownMove hstep
    have hissued : (next.ring k).issued = (sys.ring k).issued :=
      hmove.issued_eq
    rcases hreleased with hmore | ⟨hgood, hlength, hdone, hhead⟩
    · exact Or.inl (hissued ▸ hmore)
    · obtain ⟨hnext, hexecuted⟩ :=
        hmove.head_of_executed (hgood k) (by
          change (sys.ring k).issued.length ≤
            (sys.ring k).executed.length
          omega) hhead
      refine Or.inr ⟨hgood.afterEffect hsafe (step_effect hstep),
        by rw [hissued, hlength], ?_, hnext⟩
      exact (congrArg List.length hexecuted).trans hdone
  · have hmove := step_foreignMove (by simpa using hown) hstep
    have hsame := hmove.samePoint
    rcases hreleased with hmore | ⟨hgood, hlength, hdone, hhead⟩
    · left
      rcases hmove.issued_cases with hequal | hgrows
      · exact hmore.trans_eq hequal.symm
      · exact hmore.trans hgrows
    · rcases hmove.issued_cases with hequal | hgrows
      · right
        refine ⟨hgood.afterEffect hsafe (step_effect hstep),
          hequal.trans hlength,
          (congrArg List.length hsame.executed_eq).trans hdone, ?_⟩
        exact hsame.head_eq.trans (hhead.trans hsame.cursor_eq.symm)
      · left
        exact hlength.symm.trans_lt hgrows

/-- The `n` calls issued to ring `k` are being drained, and no other one is
issued. -/
structure Draining (dep : Deployment κ μ) (k : ℤ) (n : ℕ)
    (sys : System κ μ) : Prop where
  good : sys.AllGood dep
  aligned : (sys.workers k).Aligned
  issued_eq : (sys.ring k).issued.length = n
  awake : (sys.ring k).executed.length < n → (sys.workers k).Awake
  returned : (sys.ring k).executed.length < n →
    (sys.ring k).Returned (n - 1)

namespace Draining

variable {n : ℕ}

theorem rank_lt (hdraining : sys.Draining dep k n)
    (hshares : dep.SharesEntries) (hshort : dep.capacity ≤ 32767)
    (hnot : ¬ sys.Released dep k n) {moved : KernelWorker}
    (hmove : KernelWorker.OwnMove dep access k (sys.workers k) moved) :
    moved.rank dep.ratio k n < (sys.workers k).rank dep.ratio k n := by
  have hgood := hdraining.good k
  have hissued := hdraining.issued_eq
  by_cases hpending : (sys.ring k).executed.length < n
  · have hbusy := hgood.cursor_busy hshares
      (hdraining.returned hpending) (by omega)
    refine hmove.rank_lt hgood hshort hdraining.aligned
      (hdraining.awake hpending) hbusy ?_ hpending
    exact hpending.trans_eq hissued.symm
  · -- everything is executed, so the head is still to be published
    have hle := hgood.executed_le
    have hdrain : (sys.ring k).worker = .drain := by
      by_contra hpoint
      obtain ⟨position, hhead, _, _, hpublished⟩ := hgood.published
      apply hnot
      refine Or.inr ⟨hdraining.good, hissued, by omega, ?_⟩
      rw [hhead, hpublished hpoint, hgood.cursor_eq]
    refine hmove.rank_lt_of_executed hgood hdraining.aligned hdrain ?_ n
    exact hissued.trans_le (Nat.le_of_not_lt hpending)

theorem afterOwn (hdraining : sys.Draining dep k n)
    (hshares : dep.SharesEntries) {expired : Bool} {sysret : ℤ}
    (hgood : next.AllGood dep)
    (hstep : sys.step dep access (.worker k expired sysret) =
      some next) :
    next.Draining dep k n := by
  have hmove := step_ownMove hstep
  have hmono := executed_mono hstep k
  have hissued := hdraining.issued_eq
  refine ⟨hgood, hdraining.aligned.afterOwn hmove, ?_, ?_, ?_⟩
  · exact (congrArg List.length hmove.issued_eq).trans hissued
  · intro hpending
    have hbefore := hmono.trans_lt hpending
    have hbusy := (hdraining.good k).cursor_busy hshares
      (hdraining.returned hbefore) (by omega)
    exact (hdraining.awake hbefore).afterOwn hbusy hmove
  · intro hpending
    exact hmove.returned (hdraining.returned (hmono.trans_lt hpending))

theorem afterForeign (hdraining : sys.Draining dep k n)
    (hgood : next.AllGood dep)
    (hmove : KernelWorker.ForeignMove dep.toTableConfig
      (sys.workers k) (next.workers k))
    (hissued : (next.ring k).issued.length =
      (sys.ring k).issued.length) :
    next.Draining dep k n := by
  have hexecuted : (next.ring k).executed.length =
      (sys.ring k).executed.length :=
    congrArg List.length hmove.samePoint.executed_eq
  refine ⟨hgood, hdraining.aligned.afterForeign hmove,
    hissued.trans hdraining.issued_eq, ?_, ?_⟩
  · intro hpending
    exact (hdraining.awake (hexecuted ▸ hpending)).afterForeign hmove
  · intro hpending
    exact hmove.returned (hdraining.returned (hexecuted ▸ hpending))

theorem progress (hdraining : sys.Draining dep k n)
    (hshares : dep.SharesEntries) (hshort : dep.capacity ≤ 32767)
    {action : SystemAction κ}
    (hsafe : sys.NoOverrun dep action)
    (hstep : sys.step dep access action = some next) :
    next.Released dep k n ∨ next.Draining dep k n ∧
      (next.workers k).rank dep.ratio k n +
          (if action.isOf k then 1 else 0) ≤
        (sys.workers k).rank dep.ratio k n := by
  by_cases hreleased : sys.Released dep k n
  · exact Or.inl (hreleased.afterStep hsafe hstep)
  · have hgood := hdraining.good.afterEffect hsafe (step_effect hstep)
    by_cases hown : action.isOf k = true
    · obtain ⟨expired, sysret, rfl⟩ :=
        SystemAction.eq_worker_of_isOf hown
      rw [if_pos hown]
      exact Or.inr ⟨hdraining.afterOwn hshares hgood hstep,
        hdraining.rank_lt hshares hshort hreleased (step_ownMove hstep)⟩
    · have hmove := step_foreignMove (by simpa using hown) hstep
      rw [if_neg hown, hmove.samePoint.rank_eq]
      rcases hmove.issued_cases with hequal | hgrows
      · exact Or.inr ⟨hdraining.afterForeign hgood hmove hequal, le_rfl⟩
      · exact Or.inl (Or.inl (hdraining.issued_eq.symm.trans_lt hgrows))

end Draining

/-- An empty ring is not full. -/
theorem Released.not_spinsFull {n : ℕ}
    (hreleased : sys.Released dep k n) :
    n < (sys.ring k).issued.length ∨
      ¬ (sys.ring k).table.SpinsFull := by
  rcases hreleased with hmore | ⟨hgood, hissued, hexecuted, hhead⟩
  · exact Or.inl hmore
  · right
    rintro ⟨hentry, _⟩
    have hempty : (sys.ring k).table.head = (sys.ring k).table.tail := by
      rw [hhead, (hgood k).cursor_eq, (hgood k).tail_eq, hissued,
        hexecuted]
    have hsame := congrArg Prod.snd hempty
    simp only [EscaTable.head, EscaTable.tail] at hsame
    omega

end System

end Saio
